import TableQuery.Condition.Relation
import TableQuery.Row.Basic
import TableQuery.Timestamp.Reading

/-! Conditions on rows. A comparison takes its literal as the kind of value that it meets
first, and keeps it so for all rows after. -/
namespace TableQuery
open TableQuery.Text

def Value.ofLiteral (sample : Value) (literal : String) : Value :=
  let cast := match sample with
    | .int _ => (Value.readInt? literal.toList).map Value.int
    | .float _ => (Binary64.read? literal.toList).map Value.float
    | .time _ => (Timestamp.read? literal.toList).map Value.time
    | _ => none
  cast.getD (.text literal)

structure Comparison where
  column : String
  relation : Relation
  literal : String
  -- the literal as a value, once a row has been met
  cast : Option Value := none
deriving DecidableEq

def Comparison.test (c : Comparison) (row : Row) : Bool × Comparison :=
  let value := row.value c.column
  let literal := c.cast.getD (Value.ofLiteral value c.literal)
  (c.relation.holds value literal, { c with cast := some literal })

inductive Connective where
  | and
  | or
deriving DecidableEq

namespace Connective

def name : Connective → String
  | and => "AND"
  | or => "OR"

def decisive : Connective → Bool
  | and => false
  | or => true

def apply : Connective → Bool → Bool → Bool
  | and => (· && ·)
  | or => (· || ·)

end Connective

inductive Condition where
  | leaf (c : Comparison)
  | join (k : Connective) (left right : Condition)
deriving DecidableEq

namespace Condition

/-- Whether the row meets the condition, and the condition with the literals cast. The right
side meets only the rows that the left side does not decide. -/
def test : Condition → Row → Bool × Condition
  | leaf c, row => ((c.test row).1, leaf (c.test row).2)
  | join k left right, row =>
    let (found, left) := left.test row
    if found = k.decisive then (found, join k left right)
    else
      let (found, right) := right.test row
      (found, join k left right)

def select : Condition → List Row → List Row × Condition
  | c, [] => ([], c)
  | c, row :: rows =>
    let (found, c) := c.test row
    let (kept, c) := select c rows
    (if found then row :: kept else kept, c)

def leaves : Condition → List Comparison
  | leaf c => [c]
  | join _ left right => left.leaves ++ right.leaves

def display : Condition → String
  | leaf c => c.column ++ " " ++ c.relation.symbol ++ " " ++ c.literal
  | join k left right => "(" ++ left.display ++ " " ++ k.name ++ " " ++ right.display ++ ")"

end Condition
end TableQuery
