import TableQuery.Proofs.Json.Decoding

/-! Rows are read back from their document, as far as JSON has their values. -/
namespace TableQuery
open TableQuery.Json

namespace Value

/-- JSON has the value as it is. A float may be rounded when it is read, and a time is written as
a text. -/
def isNative : Value → Bool
  | null => true
  | bool _ => true
  | int _ => true
  | float _ => false
  | text _ => true
  | time _ => false

variable {v : Value}

theorem isExact_toJson (h : v.isNative = true) (depth : Nat) : v.toJson.IsExact depth := by
  cases v with
  | null => exact .null depth
  | bool b => exact .bool depth b
  | int i =>
    have hlow := i.le_toInt
    have hhigh := i.toInt_lt
    exact .integer depth ⟨by omega, by omega⟩
  | text s => exact .string depth s
  | float x => cases h
  | time t => cases h

theorem ofJson_toJson (h : v.isNative = true) : ofJson v.toJson = v := by
  cases v with
  | null => rfl
  | bool b => rfl
  | int i =>
    have hlow := i.le_toInt
    have hhigh := i.toInt_lt
    rw [toJson, ofJson, if_pos ⟨by omega, by omega⟩, Int64.ofInt_toInt]
  | text s => rfl
  | float x => cases h
  | time t => cases h

end Value

namespace Row

def isNative (row : Row) : Bool := row.fields.all fun field => field.2.isNative

variable {row : Row} {rows : List Row}

theorem isNative_of_mem {field : String × Value} (h : row.isNative = true)
    (hfield : field ∈ row.fields) : field.2.isNative = true :=
  List.all_eq_true.1 h field hfield

theorem isExact_toJson (h : row.isNative = true) (depth : Nat) :
    row.toJson.IsExact (depth + 1) := by
  refine .object ?_ ?_
  · intro m hm
    obtain ⟨field, hfield, rfl⟩ := List.mem_map.1 hm
    exact Value.isExact_toJson (isNative_of_mem h hfield) depth
  · have hnames : Fields.names (row.fields.map fun field => (field.1, field.2.toJson)) =
        row.columns := by
      rw [Fields.names, List.map_map]
      rfl
    rw [hnames]
    exact row.nodup

theorem ofJson_toJson (h : row.isNative = true) : ofJson row.toJson = .ok row := by
  have hfields : (row.fields.map fun field => (field.1, field.2.toJson)).map
      (fun m => (m.1, Value.ofJson m.2)) = row.fields := by
    rw [List.map_map]
    refine (List.map_congr_left fun field hfield => ?_).trans (List.map_id _)
    rw [Function.comp, Value.ofJson_toJson (isNative_of_mem h hfield)]
    rfl
  rw [toJson, ofJson, hfields, ofList_fields]

theorem mapM_ofJson (h : ∀ row ∈ rows, row.isNative = true) :
    (rows.map toJson).mapM ofJson = .ok rows := by
  induction rows with
  | nil => rfl
  | cons row rows ih =>
    obtain ⟨hrow, hrows⟩ := List.forall_mem_cons.1 h
    rw [List.map_cons, List.mapM_cons, ofJson_toJson hrow, ih hrows]
    rfl

/-- The text of the rows is read, and what is read are the rows. -/
theorem listOfJson_read?_text (h : ∀ row ∈ rows, row.isNative = true) :
    ∃ document, Json.read? (listToJson rows).text = some document ∧
      listOfJson document = .ok rows := by
  have hexact : (listToJson rows).IsExact maxDepth := by
    refine .array ?_
    intro item hitem
    obtain ⟨row, hrow, rfl⟩ := List.mem_map.1 hitem
    exact isExact_toJson (h row hrow) 125
  exact ⟨listToJson rows, read?_text hexact, mapM_ofJson h⟩

/-- The greatest and the least integer, and a key and a text that have to be escaped. -/
theorem listOfJson_read?_text_extremes :
    let rows := [ofList [("a\"\n", .int Int64.maxValue), ("", .int Int64.minValue)],
      ofList [("é", .text "\\u0041\x07😀"), ("a", .null), ("A", .bool true)], empty]
    (∀ row ∈ rows, row.isNative = true) ∧
      ∃ document, Json.read? (listToJson rows).text = some document ∧
        listOfJson document = .ok rows := by
  intro rows
  have hnative : ∀ row ∈ rows, row.isNative = true := by decide +kernel
  exact ⟨hnative, listOfJson_read?_text hnative⟩

end Row
end TableQuery
