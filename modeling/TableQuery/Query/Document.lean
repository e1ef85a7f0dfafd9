import TableQuery.Json.Basic
import TableQuery.Query.Basic
import TableQuery.QueryError

/-! Queries as JSON: an object of clauses by name, or an array of them in order. A document is
read from the front, and its first fault is the one that shows. -/
namespace TableQuery.Query
open TableQuery.Json

inductive Fault where
  | refused
  -- a count that is neither text nor number
  | count (found : Json)

def Fault.detail (r : Refusal) : Fault → String
  | refused => r.text
  | count found => "expected a string or number, found " ++ String.ofList found.text ++ r.place

def orRefused {α : Type} : Option α → Except Fault α
  | some a => .ok a
  | none => .error .refused

def readClause (c : Clause) (value : Tree) : Except Fault (Option String) :=
  if c.isCount then do
    match ← orRefused (ofTree? (maxDepth - 1) value) with
    | .null => return none
    | .string s => return some s
    | .number n => return some (String.ofList n.text)
    | other => throw (.count other)
  else match value with
    | .null => return none
    | .string parts => return some (String.ofList (← orRefused (decode? parts)))
    | _ => throw .refused

def readMembers (q : Query) (seen : List Clause) :
    List (List StringPart × Tree) → Except Fault Query
  | [] => return q
  | (key, value) :: members => do
    let key ← orRefused (decode? key)
    match Clause.ofName? (String.ofList key) with
    | none => readMembers q seen members
    | some c =>
      if c ∈ seen then throw .refused
      else readMembers (q.set c (← readClause c value)) (c :: seen) members

def readItems (q : Query) : List Clause → List Tree → Except Fault Query
  | _, [] => return q
  | [], _ :: _ => throw .refused
  | c :: clauses, value :: items => do readItems (q.set c (← readClause c value)) clauses items

def readTree : Tree → Except Fault Query
  | .object members => readMembers empty [] members
  | .array items => readItems empty Clause.all items
  | _ => throw .refused

/-- Of an incomplete document the part before its fault may have a fault of its own. -/
def readDocument (s : List Char) : Except Fault Query := do
  let reading := Reading.ofText s
  let q ← readTree reading.tree
  if reading.complete then return q else throw .refused

def ofJsonText (refusal : String → Refusal) (text : String) : Except QueryError Query :=
  (readDocument text.toList).mapError fun fault => .document (fault.detail (refusal text))

def toJson (q : Query) : Json :=
  .object (Clause.all.filterMap fun c => (q.get? c).map fun text => (c.name, .string text))

end TableQuery.Query
