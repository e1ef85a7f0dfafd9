import TableQuery.Proofs.FirstSeen
import TableQuery.Row.Basic

/-! Rows after insertions: the columns stand in the order of first occurrence, and the last
insertion under a name is the one that shows. Columns and values determine the row. -/
namespace TableQuery
namespace Fields
variable {α : Type}

theorem find?_put (name other : String) (a : α) (fields : List (String × α)) :
    find? other (put name a fields) = if other = name then some a else find? other fields := by
  induction fields with
  | nil => simp [put, find?, eq_comm]
  | cons field rest ih =>
    by_cases h : field.1 = name
    · by_cases ho : other = name
      · simp [put, find?, h, ho]
      · simp [put, find?, h, ho, Ne.symm ho]
    · by_cases hf : field.1 = other
      · have ho : other ≠ name := hf ▸ h
        simp [put, find?, hf, ho]
      · simpa [put, find?, h, hf] using ih

theorem find?_eq_none {name : String} {fields : List (String × α)} (h : name ∉ names fields) :
    find? name fields = none := by
  induction fields with
  | nil => rfl
  | cons field rest ih =>
    simp only [names, List.map_cons, List.mem_cons, not_or] at h
    rw [find?, if_neg (Ne.symm h.1)]
    exact ih h.2

theorem eq_of_find? {fields others : List (String × α)} (hn : (names fields).Nodup)
    (hnames : names fields = names others)
    (h : ∀ name, find? name fields = find? name others) : fields = others := by
  induction fields generalizing others with
  | nil => cases others <;> simp_all [names]
  | cons field rest ih =>
    cases others with
    | nil => simp [names] at hnames
    | cons other others =>
      obtain ⟨hhead, htail⟩ := List.cons_eq_cons.1 hnames
      obtain ⟨hfresh, hrest⟩ := List.nodup_cons.1 hn
      have hvalue := h field.1
      simp only [find?, if_true, hhead, Option.some.injEq] at hvalue
      have hothers : ∀ name, find? name rest = find? name others := by
        intro name
        by_cases hname : field.1 = name
        · subst hname
          have hfresh' : field.1 ∉ names others := fun hmem => hfresh (by rwa [htail])
          rw [find?_eq_none hfresh, find?_eq_none hfresh']
        · have hname' : other.1 ≠ name := hhead ▸ hname
          simpa [find?, hname, hname'] using h name
      rw [ih hrest htail hothers, Prod.ext hhead hvalue]

end Fields

namespace Row

theorem ext_fields {a b : Row} (h : a.fields = b.fields) : a = b := by
  cases a
  cases b
  cases h
  rfl

theorem eq_of_get? {a b : Row} (hcolumns : a.columns = b.columns)
    (h : ∀ column, a.get? column = b.get? column) : a = b :=
  ext_fields (Fields.eq_of_find? a.nodup hcolumns h)

theorem get?_insert (row : Row) (column name : String) (v : Value) :
    (row.insert column v).get? name = if name = column then some v else row.get? name :=
  Fields.find?_put column name v row.fields

theorem columns_insert (row : Row) (column : String) (v : Value) :
    (row.insert column v).columns =
      if column ∈ row.columns then row.columns else row.columns ++ [column] :=
  Fields.names_put column v row.fields

def insertAll (row : Row) (fields : List (String × Value)) : Row :=
  fields.foldl (fun row field => row.insert field.1 field.2) row

/-- The last of the inserted fields of a name shows, and without one the row's own does. -/
theorem get?_insertAll (row : Row) (fields : List (String × Value)) (name : String) :
    (row.insertAll fields).get? name = (fields.reverse.lookup name).or (row.get? name) := by
  induction fields generalizing row with
  | nil => rfl
  | cons field rest ih =>
    obtain ⟨column, v⟩ := field
    rw [insertAll, List.foldl_cons, ← insertAll, ih, get?_insert, List.reverse_cons,
      List.lookup_append, Option.or_assoc, List.lookup_cons, List.lookup_nil]
    by_cases h : name = column
    · simp [h]
    · simp [h, beq_false_of_ne h]

/-- The row's own columns stay in front, and new ones follow as they come. -/
theorem columns_insertAll (row : Row) (fields : List (String × Value)) :
    (row.insertAll fields).columns = (row.columns ++ Fields.names fields).eraseDups := by
  induction fields generalizing row with
  | nil =>
    have h := FirstSeen.eraseDups_of_nodup row.nodup
    simpa [insertAll, Fields.names, columns] using h.symm
  | cons field rest ih =>
    rw [insertAll, List.foldl_cons, ← insertAll, ih, columns_insert]
    split
    · next h => exact (FirstSeen.eraseDups_append_cons_of_mem h _).symm
    · rw [List.append_assoc]
      rfl

end Row
end TableQuery
