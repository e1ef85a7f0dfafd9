import TableQuery.Text.Blank

/-! Queries: the text of each clause, if there is one. -/
namespace TableQuery

inductive Clause where
  | select
  | condition
  | groupBy
  | orderBy
  | limit
  | offset
deriving DecidableEq

namespace Clause

def all : List Clause := [select, condition, groupBy, orderBy, limit, offset]

def name : Clause → String
  | select => "select"
  | condition => "where"
  | groupBy => "group_by"
  | orderBy => "order_by"
  | limit => "limit"
  | offset => "offset"

def ofName? (name : String) : Option Clause := all.find? (·.name == name)

def isCount : Clause → Bool
  | limit => true
  | offset => true
  | _ => false

end Clause

structure Query where
  select : Option String := none
  condition : Option String := none
  groupBy : Option String := none
  orderBy : Option String := none
  limit : Option String := none
  offset : Option String := none
deriving DecidableEq

namespace Query

def empty : Query := {}

def get? (q : Query) : Clause → Option String
  | .select => q.select
  | .condition => q.condition
  | .groupBy => q.groupBy
  | .orderBy => q.orderBy
  | .limit => q.limit
  | .offset => q.offset

def set (q : Query) (c : Clause) (text : Option String) : Query :=
  match c with
  | .select => { q with select := text }
  | .condition => { q with condition := text }
  | .groupBy => { q with groupBy := text }
  | .orderBy => { q with orderBy := text }
  | .limit => { q with limit := text }
  | .offset => { q with offset := text }

def clause? (q : Query) (c : Clause) : Option String :=
  ((q.get? c).map Text.trimmed).filter (· ≠ "")

end Query
end TableQuery
