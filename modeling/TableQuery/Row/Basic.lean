import TableQuery.Fields
import TableQuery.Value.Order

/-! Rows: values under distinct column names, in the order of arrival. -/
namespace TableQuery

structure Row where
  fields : List (String × Value)
  nodup : (Fields.names fields).Nodup
deriving DecidableEq

namespace Row

def empty : Row := ⟨[], List.Pairwise.nil⟩

def columns (row : Row) : List String := Fields.names row.fields

def get? (row : Row) (column : String) : Option Value := Fields.find? column row.fields

def value (row : Row) (column : String) : Value := (row.get? column).getD .null

def contains (row : Row) (column : String) : Bool := (row.get? column).isSome

def size (row : Row) : Nat := row.fields.length

def insert (row : Row) (column : String) (v : Value) : Row :=
  ⟨Fields.put column v row.fields, Fields.nodup_put row.nodup column v⟩

def filter (keep : String → Value → Bool) (row : Row) : Row :=
  ⟨row.fields.filter fun field => keep field.1 field.2, Fields.nodup_filter row.nodup _⟩

def ofList (fields : List (String × Value)) : Row :=
  fields.foldl (fun row field => row.insert field.1 field.2) empty

def equals (a b : Row) : Bool :=
  a.size == b.size && (a.fields.zip b.fields).all fun (x, y) => x.1 == y.1 && x.2.equals y.2

end Row
end TableQuery
