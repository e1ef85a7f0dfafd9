import TableQuery.Row.Basic
import TableQuery.Text.Cut

/-! The columns that a query asks for: plain ones, and sums and maxima over groups of rows. -/
namespace TableQuery
open TableQuery.Text

inductive Aggregate where
  | sum
  | maximum
deriving DecidableEq

namespace Aggregate

def name : Aggregate → String
  | sum => "sum"
  | maximum => "max"

/-- The sum of the cells that read as numbers, from left to right. It starts at the zero
that changes no number. -/
def total (rows : List Row) (column : String) : Value :=
  .float ((rows.filterMap fun row => (row.value column).toNumber?).foldl
    Binary64.add (Binary64.zero true))

def larger (best v : Value) : Value := if v.compare? best = some .gt then v else best

def greatest (rows : List Row) (column : String) : Value :=
  match (rows.map (·.value column)).filter (!·.isNull) with
  | [] => .null
  | v :: vs => vs.foldl larger v

def evaluate : Aggregate → List Row → String → Value
  | sum => total
  | maximum => greatest

def argument? (a : Aggregate) (s : List Char) : Option (List Char) := do
  let rest ← strip? sameLetter (a.name.toList ++ ['(']) s
  beforeLast? ')' (rest.takeWhile (· != '\n'))

end Aggregate

structure Column where
  source : String
  label : String
  aggregate : Option Aggregate
deriving DecidableEq

namespace Column

def plain (name : String) : Column := ⟨trimmed name, trimmed name, none⟩

def ofExpression (expression : String) : Column :=
  match leftmost Aggregate.sum.argument? expression.toList,
      leftmost Aggregate.maximum.argument? expression.toList with
  | some (_, source), _ => ⟨String.ofList source, expression, some .sum⟩
  | none, some (_, source) => ⟨String.ofList source, expression, some .maximum⟩
  | none, none => plain expression

def evaluate? (c : Column) (rows : List Row) : Option Value :=
  c.aggregate.map fun a => a.evaluate rows c.source

end Column

structure Selection where
  columns : List Column
  wildcard : Bool
deriving DecidableEq

namespace Selection

def ofClause (clause : Option String) : Selection :=
  let parts := (terms (clause.getD "").toList).map trim
  { columns := (parts.filter fun t => !t.isEmpty && t != ['*']).map fun t =>
      Column.ofExpression (String.ofList t)
    wildcard := parts.contains ['*'] }

def selectsAll (s : Selection) : Bool := s.wildcard || s.columns.isEmpty

def project (s : Selection) (row : Row) : Row :=
  if s.selectsAll then row else row.filter fun name _ => s.columns.any (·.label == name)

end Selection
end TableQuery
