import Mathlib.Data.List.Forall2
import Mathlib.Data.Set.Defs
import TableQuery.Proofs.Row.Insertion

/-! Rows that agree on some columns. A null agrees with an absent column, and neither the order
of the fields nor any other column counts. -/
namespace TableQuery
namespace Fields
variable {α : Type}

theorem find?_filter (keep : String → Bool) (name : String) (fields : List (String × α)) :
    find? name (fields.filter fun field => keep field.1) =
      if keep name then find? name fields else none := by
  induction fields with
  | nil => simp [find?]
  | cons field rest ih =>
    by_cases hname : field.1 = name
    · subst hname
      cases hkeep : keep field.1 with
      | true => simp [find?, hkeep]
      | false => simpa [hkeep] using ih
    · cases hkeep : keep field.1 with
      | true => simpa [find?, hkeep, hname] using ih
      | false => simpa [find?, hkeep, hname] using ih

end Fields

namespace Row

theorem value_insert (row : Row) (column name : String) (v : Value) :
    (row.insert column v).value name = if name = column then v else row.value name := by
  rw [value, get?_insert, apply_ite (Option.getD · Value.null)]
  rfl

theorem value_filter (keep : String → Bool) (row : Row) (name : String) :
    (row.filter fun column _ => keep column).value name =
      if keep name then row.value name else .null := by
  have hfind : (row.filter fun column _ => keep column).get? name = _ :=
    Fields.find?_filter keep name row.fields
  rw [value, hfind, apply_ite (Option.getD · Value.null)]
  rfl

def AgreeOn (U : Set String) (a b : Row) : Prop := ∀ column ∈ U, a.value column = b.value column

instance (columns : List String) (a b : Row) :
    Decidable (AgreeOn {column | column ∈ columns} a b) :=
  inferInstanceAs (Decidable (∀ column ∈ columns, a.value column = b.value column))

variable {U : Set String} {a b : Row}

theorem AgreeOn.insert (h : AgreeOn U a b) (column : String) (v : Value) :
    AgreeOn U (a.insert column v) (b.insert column v) := by
  intro name hname
  rw [value_insert, value_insert, h name hname]

theorem AgreeOn.insertAll (h : AgreeOn U a b) (fields : List (String × Value)) :
    AgreeOn U (a.insertAll fields) (b.insertAll fields) := by
  induction fields generalizing a b with
  | nil => exact h
  | cons field rest ih => exact ih (h.insert field.1 field.2)

theorem AgreeOn.filter (h : AgreeOn U a b) (keep : String → Bool) :
    AgreeOn U (a.filter fun column _ => keep column) (b.filter fun column _ => keep column) := by
  intro name hname
  rw [value_filter, value_filter, h name hname]

/-- A column of agreement is the same in rows that agree one by one. -/
theorem map_value_eq {rows others : List Row} (h : List.Forall₂ (AgreeOn U) rows others)
    {column : String} (hcolumn : column ∈ U) :
    rows.map (·.value column) = others.map (·.value column) := by
  induction h with
  | nil => rfl
  | cons hrow _ ih => rw [List.map_cons, List.map_cons, hrow column hcolumn, ih]

end Row
end TableQuery
