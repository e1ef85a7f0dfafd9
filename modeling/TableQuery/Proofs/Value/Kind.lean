import TableQuery.Condition.Basic

/-! The kinds of values. Nothing else about a value counts when a literal is cast by it. -/
namespace TableQuery.Value

inductive Kind where
  | null
  | bool
  | int
  | float
  | text
  | time
deriving DecidableEq

def kind : Value → Kind
  | null => .null
  | bool _ => .bool
  | int _ => .int
  | float _ => .float
  | text _ => .text
  | time _ => .time

theorem ofLiteral_eq_of_kind_eq {a b : Value} (h : a.kind = b.kind) (literal : String) :
    ofLiteral a literal = ofLiteral b literal := by
  cases a <;> cases b <;> first | rfl | cases h

end TableQuery.Value
