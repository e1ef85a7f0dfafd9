import TableQuery.Fields
import TableQuery.Json.Number
import TableQuery.Json.Tree

/-! JSON values, read from a text and written without spaces. -/
namespace TableQuery

inductive Json where
  | null
  | bool (b : Bool)
  | number (n : Json.Number)
  | string (s : String)
  | array (items : List Json)
  | object (members : List (String × Json))

namespace Json

def kind : Json → String
  | null => "null"
  | bool _ => "boolean"
  | number _ => "number"
  | string _ => "string"
  | array _ => "array"
  | object _ => "object"

def ofMembers (members : List (String × Json)) : Json := object (Fields.ofList members)

mutual

def text : Json → List Char
  | null => "null".toList
  | bool b => (if b then "true" else "false").toList
  | number n => n.text
  | string s => quote s.toList
  | array items => '[' :: itemsText items ++ [']']
  | object members => '{' :: membersText members ++ ['}']

def itemsText : List Json → List Char
  | [] => []
  | [item] => item.text
  | item :: items => item.text ++ ',' :: itemsText items

def membersText : List (String × Json) → List Char
  | [] => []
  | [(key, value)] => quote key.toList ++ ':' :: value.text
  | (key, value) :: members => quote key.toList ++ ':' :: value.text ++ ',' :: membersText members

end

mutual

/-- The value of a tree with arrays and objects at most `depth` deep. There is none where a
number is too great or a string holds half a surrogate pair. -/
def ofTree? (depth : Nat) : Tree → Option Json
  | .null => some null
  | .bool b => some (bool b)
  | .number n => (Number.ofNumeral? n).map number
  | .string parts => (decode? parts).map fun s => string (String.ofList s)
  | .array items => if depth = 0 then none else (ofItems? (depth - 1) items).map array
  | .object members => if depth = 0 then none else (ofMembers? (depth - 1) members).map ofMembers

def ofItems? (depth : Nat) : List Tree → Option (List Json)
  | [] => some []
  | item :: items => do return (← ofTree? depth item) :: (← ofItems? depth items)

def ofMembers? (depth : Nat) : List (List StringPart × Tree) → Option (List (String × Json))
  | [] => some []
  | (key, value) :: members => do
    let key ← decode? key
    let value ← ofTree? depth value
    return (String.ofList key, value) :: (← ofMembers? depth members)

end

def maxDepth : Nat := 127

def read? (s : List Char) : Option Json :=
  let reading := Reading.ofText s
  if reading.complete then ofTree? maxDepth reading.tree else none

/-- What the reader of JSON says of a text that it refuses: why, and where in the text. The words
are its own. -/
structure Refusal where
  reason : String
  place : String

def Refusal.text (r : Refusal) : String := r.reason ++ r.place

end Json
end TableQuery
