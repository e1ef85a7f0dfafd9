import TableQuery.Text.Blank

/-! What can go wrong with a query, its rows or its settings. -/
namespace TableQuery

inductive QueryError where
  | condition (text : String)
  | document (detail : String)
  | rows (detail : String)
  | settings (detail : String)
deriving DecidableEq

inductive ParenthesisFault where
  | nested
  | unclosed
  | unmatched
deriving DecidableEq

def ParenthesisFault.reason : ParenthesisFault → String
  | nested => "nested parentheses are not supported"
  | unclosed => "unclosed parenthesis"
  | unmatched => "unmatched closing parenthesis"

namespace QueryError

def noOperator (fragment : String) : QueryError := condition (Text.trimmed fragment)

def parentheses (fragment reason : String) : QueryError :=
  condition (Text.trimmed fragment ++ " (" ++ reason ++ ")")

def code : QueryError → String
  | condition _ => "QUERY_CONDITION_SYNTAX"
  | document _ => "QUERY_INVALID_DOCUMENT"
  | rows _ => "QUERY_INVALID_ROWS"
  | settings _ => "QUERY_INVALID_CONFIG"

def message : QueryError → String
  | condition text => "Unable to understand condition: " ++ text
  | document detail => "Invalid query document: " ++ detail
  | rows detail => "Invalid rows: " ++ detail
  | settings detail => "Invalid executor configuration: " ++ detail

def isSyntax : QueryError → Bool
  | condition _ => true
  | _ => false

end QueryError
end TableQuery
