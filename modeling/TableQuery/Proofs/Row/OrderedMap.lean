import TableQuery.Proofs.Row.Insertion
import TableQuery.Row.Json

/-! Rows are maps from columns to values that remember the order of insertion. Names stay distinct
under every operation on fields, and so a name shows the one field that bears it. -/
namespace TableQuery

namespace Fields
variable {α : Type} {fields : List (String × α)}

theorem find?_eq_some_iff (h : (names fields).Nodup) {name : String} {a : α} :
    find? name fields = some a ↔ (name, a) ∈ fields := by
  induction fields with
  | nil => simp [find?]
  | cons field rest ih =>
    obtain ⟨hfresh, hrest⟩ := List.nodup_cons.1 h
    by_cases hname : field.1 = name
    · subst hname
      have hnot : (field.1, a) ∉ rest := fun hmem => hfresh (List.mem_map.2 ⟨_, hmem, rfl⟩)
      simp [find?, hnot, Prod.ext_iff, eq_comm]
    · have hne : (name, a) ≠ field := fun he => hname (he ▸ rfl)
      simp [find?, hname, hne, ih hrest]

/-- A field that is left out shows nowhere else. -/
theorem find?_filter_of_nodup (h : (names fields).Nodup) (keep : String × α → Bool)
    (name : String) :
    find? name (fields.filter keep) = (find? name fields).filter fun a => keep (name, a) := by
  refine Option.ext fun a => ?_
  rw [find?_eq_some_iff (nodup_filter h keep), List.mem_filter, Option.filter_eq_some_iff,
    find?_eq_some_iff h]

theorem put_of_not_mem {name : String} (h : name ∉ names fields) (a : α) :
    put name a fields = fields ++ [(name, a)] := by
  induction fields with
  | nil => rfl
  | cons field rest ih =>
    simp only [names, List.map_cons, List.mem_cons, not_or] at h
    rw [put, if_neg (Ne.symm h.1), ih h.2, List.cons_append]

theorem foldl_put_of_nodup {acc : List (String × α)} (h : (names (acc ++ fields)).Nodup) :
    fields.foldl (fun acc field => put field.1 field.2 acc) acc = acc ++ fields := by
  induction fields generalizing acc with
  | nil => rw [List.foldl_nil, List.append_nil]
  | cons field rest ih =>
    have hsplit : acc ++ field :: rest = (acc ++ [field]) ++ rest := by simp
    have hfresh : field.1 ∉ names acc := by
      rw [names, List.map_append, List.nodup_append] at h
      exact fun hmem => h.2.2 _ hmem _ List.mem_cons_self rfl
    rw [hsplit] at h ⊢
    rw [List.foldl_cons, put_of_not_mem hfresh, ih h]

/-- Fields of distinct names are as they are. -/
theorem ofList_of_nodup (h : (names fields).Nodup) : ofList fields = fields := by
  have hnil : (names ([] ++ fields)).Nodup := h
  exact foldl_put_of_nodup hnil

theorem nodup_ofList (fields : List (String × α)) : (names (ofList fields)).Nodup := by
  suffices hfold : ∀ acc : List (String × α), (names acc).Nodup →
      (names (fields.foldl (fun acc field => put field.1 field.2 acc) acc)).Nodup from
    hfold [] List.nodup_nil
  induction fields with
  | nil => exact fun acc h => h
  | cons field rest ih => exact fun acc h => ih _ (nodup_put h field.1 field.2)

inductive IsReached : List (String × α) → Prop
  | ofList (fields : List (String × α)) : IsReached (ofList fields)
  | put {fields : List (String × α)} (h : IsReached fields) (name : String) (a : α) :
      IsReached (put name a fields)
  | filter {fields : List (String × α)} (h : IsReached fields) (keep : String × α → Bool) :
      IsReached (fields.filter keep)

theorem isReached_iff : IsReached fields ↔ (names fields).Nodup := by
  constructor
  · intro h
    induction h with
    | ofList fields => exact nodup_ofList fields
    | put _ name a ih => exact nodup_put ih name a
    | filter _ keep ih => exact nodup_filter ih keep
  · intro h
    rw [← ofList_of_nodup h]
    exact .ofList fields

end Fields

namespace Row

theorem fields_ofList (fields : List (String × Value)) :
    (ofList fields).fields = Fields.ofList fields :=
  (List.foldl_hom Row.fields fun _ _ => rfl).symm

theorem ofList_fields (row : Row) : ofList row.fields = row := by
  refine ext_fields ?_
  rw [fields_ofList, Fields.ofList_of_nodup row.nodup]

theorem get?_eq_some_iff {row : Row} {column : String} {v : Value} :
    row.get? column = some v ↔ (column, v) ∈ row.fields :=
  Fields.find?_eq_some_iff row.nodup

structure IsMap (row : Row) : Prop where
  distinct : row.columns.Nodup
  shows : ∀ column v, row.get? column = some v ↔ (column, v) ∈ row.fields

theorem isMap (row : Row) : row.IsMap := ⟨row.nodup, fun _ _ => get?_eq_some_iff⟩

structure IsInserted (row : Row) (column : String) (v : Value) (out : Row) : Prop where
  value : out.value column = v
  others : ∀ name, name ≠ column → out.get? name = row.get? name
  present : column ∈ row.columns → out.columns = row.columns
  absent : column ∉ row.columns → out.columns = row.columns ++ [column]

theorem isInserted_insert (row : Row) (column : String) (v : Value) :
    IsInserted row column v (row.insert column v) where
  value := by rw [value, get?_insert, if_pos rfl, Option.getD_some]
  others name hname := by rw [get?_insert, if_neg hname]
  present hmem := by rw [columns_insert, if_pos hmem]
  absent hnot := by rw [columns_insert, if_neg hnot]

structure IsKept (keep : String → Value → Bool) (row out : Row) : Prop where
  sublist : out.columns.Sublist row.columns
  get? : ∀ column, out.get? column = (row.get? column).filter (keep column)

theorem isKept_filter (keep : String → Value → Bool) (row : Row) :
    IsKept keep row (row.filter keep) where
  sublist := List.filter_sublist.map Prod.fst
  get? column := Fields.find?_filter_of_nodup row.nodup (fun field => keep field.1 field.2) column

structure IsCollected (fields : List (String × Value)) (row : Row) : Prop where
  occurs : ∀ column, column ∈ row.columns ↔ column ∈ Fields.names fields
  ordered : row.columns.Pairwise fun a b =>
    (Fields.names fields).idxOf a < (Fields.names fields).idxOf b
  last : ∀ column ∈ row.columns, ∃ before v after, fields = before ++ (column, v) :: after ∧
    column ∉ Fields.names after ∧ row.get? column = some v

theorem columns_ofList (fields : List (String × Value)) :
    (ofList fields).columns = (Fields.names fields).eraseDups :=
  columns_insertAll empty fields

theorem get?_ofList (fields : List (String × Value)) (column : String) :
    (ofList fields).get? column = fields.reverse.lookup column := by
  have h : (ofList fields).get? column = _ := get?_insertAll empty fields column
  rw [h]
  exact Option.or_none

theorem isCollected_ofList (fields : List (String × Value)) :
    IsCollected fields (ofList fields) where
  occurs column := by rw [columns_ofList, List.mem_eraseDups]
  ordered := by
    rw [columns_ofList]
    exact FirstSeen.pairwise_eraseDups _
  last column hcolumn := by
    obtain ⟨⟨_, v⟩, hmem, rfl⟩ := List.mem_map.1 hcolumn
    have hget := get?_eq_some_iff.2 hmem
    have hlookup := hget
    rw [get?_ofList, List.lookup_eq_some_iff] at hlookup
    obtain ⟨after, before, hfields, hlast⟩ := hlookup
    refine ⟨before.reverse, v, after.reverse, ?_, ?_, hget⟩
    · have hreverse := congrArg List.reverse hfields
      simpa using hreverse
    · intro hname
      obtain ⟨field, hfield, he⟩ := List.mem_map.1 hname
      have hne := hlast field (List.mem_reverse.1 hfield)
      simp [he] at hne

end Row
end TableQuery
