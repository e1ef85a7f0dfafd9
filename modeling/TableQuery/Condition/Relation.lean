import TableQuery.Text.Cut
import TableQuery.Value.Order

/-! The relations that a comparison can ask for. -/
namespace TableQuery

inductive Relation where
  | eq
  | ne
  | lt
  | le
  | gt
  | ge
deriving DecidableEq

namespace Relation

def symbol : Relation → String
  | eq => "="
  | ne => "!="
  | lt => "<"
  | le => "<="
  | gt => ">"
  | ge => ">="

/-- A relation stands behind those whose symbols are in its own. -/
def scanOrder : List Relation := [eq, ne, lt, le, gt, ge]

def occursIn (r : Relation) (s : List Char) : Bool := (Text.cutAt? r.symbol.toList s).isSome

def scan? (s : List Char) : Option Relation := (scanOrder.filter (·.occursIn s)).getLast?

def holds (r : Relation) (a b : Value) : Bool :=
  match r with
  | eq => a.equals b
  | ne => !a.equals b
  | lt => a.compare? b == some .lt
  | le => a.compare? b == some .lt || a.compare? b == some .eq
  | gt => a.compare? b == some .gt
  | ge => a.compare? b == some .gt || a.compare? b == some .eq

end Relation
end TableQuery
