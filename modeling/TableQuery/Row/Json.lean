import TableQuery.Json.Basic
import TableQuery.QueryError
import TableQuery.Row.Basic

/-! Values and rows as JSON. -/
namespace TableQuery

def Value.ofJson : Json → Value
  | .null => null
  | .bool b => bool b
  | .number (.integer i) =>
    if -0x8000000000000000 ≤ i ∧ i < 0x8000000000000000 then int (Int64.ofInt i)
    else float (Binary64.ofInteger i)
  | .number (.float x) => float x
  | .string s => text s
  | .array items => text (String.ofList (Json.text (.array items)))
  | .object members => text (String.ofList (Json.text (.object members)))

def Value.toJson : Value → Json
  | null => .null
  | bool b => .bool b
  | int i => .number (.integer i.toInt)
  | float x => if x.isNaN || x.isInfinite then .null else .number (.float x)
  | text s => .string s
  | time t => .string (String.ofList t.rfc3339Text)

namespace Row

def toJson (row : Row) : Json := .object (row.fields.map fun field => (field.1, field.2.toJson))

def ofJson : Json → Except QueryError Row
  | .object members => .ok (ofList (members.map fun m => (m.1, Value.ofJson m.2)))
  | other => .error (.rows ("expected an object, found " ++ other.kind))

def listToJson (rows : List Row) : Json := .array (rows.map toJson)

def listOfJson : Json → Except QueryError (List Row)
  | .null => .ok []
  | .array items => items.mapM ofJson
  | other => .error (.rows ("expected an array of objects, found " ++ other.kind))

end Row
end TableQuery
