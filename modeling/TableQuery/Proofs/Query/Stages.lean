import TableQuery.Engine.Basic

/-! What the stages of a query make of the rows, apart from the events that tell of it. -/
namespace TableQuery

namespace Query

def selection (q : Query) : Selection := Selection.ofClause (q.clause? .select)

def restricted (q : Query) (rows : List Row) : Except QueryError (List Row) :=
  if rows.isEmpty then .ok []
  else match q.clause? .condition with
    | none => .ok rows
    | some text => (Condition.ofText text).map fun
      | none => rows
      | some c => (c.select rows).1

def grouped (q : Query) (rows : List Row) : List Row :=
  match Grouping.keysOf ((q.clause? .groupBy).getD "") with
  | [] => rows
  | keys => Grouping.group q.selection.columns keys rows

def sorted (q : Query) (rows : List Row) : List Row :=
  SortTerm.sort (SortTerm.ofClause ((q.clause? .orderBy).getD "")) rows

def skipped (q : Query) (rows : List Row) : List Row :=
  (q.clause? .offset).elim rows fun text => Paging.offset (Paging.count text.toList) rows

def limited (q : Query) (rows : List Row) : List Row :=
  (q.clause? .limit).elim rows fun text => Paging.limit (Paging.count text.toList) rows

def arranged (q : Query) (rows : List Row) : List Row :=
  q.limited (q.skipped (q.sorted (q.grouped rows)))

end Query

theorem SortTerm.sort_nil (rows : List Row) : sort [] rows = rows :=
  List.mergeSort_of_pairwise (List.pairwise_of_forall fun _ _ => rfl)

theorem Grouping.group_nil (columns : List Column) (keys : List String) :
    group columns keys [] = [] := by
  cases keys with
  | nil => rfl
  | cons key keys => rw [group, buckets, List.flatMap_nil]

namespace Progress

theorem rows_group (q : Query) (p : Progress) :
    (p.group q.selection.columns (q.clause? .groupBy)).rows = q.grouped p.rows := by
  rw [group, Query.grouped]
  cases Grouping.keysOf ((q.clause? .groupBy).getD "") <;> rfl

theorem rows_sort (q : Query) (p : Progress) :
    (p.sort (q.clause? .orderBy)).rows = q.sorted p.rows := by
  rw [Query.sorted]
  cases q.clause? .orderBy with
  | none => exact (SortTerm.sort_nil p.rows).symm
  | some text => rfl

theorem rows_skip (q : Query) (p : Progress) :
    (p.skip (q.clause? .offset)).rows = q.skipped p.rows := by
  rw [Query.skipped]
  cases q.clause? .offset <;> rfl

theorem rows_keep (q : Query) (p : Progress) :
    (p.keep (q.clause? .limit)).rows = q.limited p.rows := by
  rw [Query.limited]
  cases q.clause? .limit <;> rfl

theorem rows_restrict (q : Query) {rows : List Row} (h : rows ≠ []) :
    (restrict ⟨rows, []⟩ (q.clause? .condition)).map (·.rows) = q.restricted rows := by
  rw [Query.restricted, if_neg (by rwa [List.isEmpty_iff])]
  cases q.clause? .condition with
  | none => rfl
  | some text =>
    simp only [restrict]
    rcases Condition.ofText text with e | _ | c <;> rfl

end Progress

namespace Query

theorem arranged_nil (q : Query) : q.arranged [] = [] := by
  have hgrouped : q.grouped [] = [] := by
    rw [grouped]
    split
    · rfl
    · exact Grouping.group_nil _ _
  have hsorted : q.sorted [] = [] := List.mergeSort_nil
  have hskipped : q.skipped [] = [] := by
    rw [skipped]
    cases q.clause? .offset with
    | none => rfl
    | some text => exact List.drop_nil
  rw [arranged, hgrouped, hsorted, hskipped, limited]
  cases q.clause? .limit with
  | none => rfl
  | some text => exact List.take_nil

theorem rows_stages (q : Query) {rows : List Row} (h : rows ≠ []) :
    (q.stages q.selection rows).map (·.rows) = (q.restricted rows).map q.arranged := by
  rw [stages, ← Progress.rows_restrict q h]
  cases Progress.restrict ⟨rows, []⟩ (q.clause? .condition) with
  | error e => rfl
  | ok p =>
    simp only [Except.map, Progress.rows_keep, Progress.rows_skip, Progress.rows_sort,
      Progress.rows_group, arranged]

theorem execute_eq_map_stages (q : Query) {rows : List Row} (h : rows ≠ []) :
    q.execute rows =
      ((q.stages q.selection rows).map (·.rows)).map (·.map q.selection.project) := by
  have hselection : Selection.ofClause (q.clause? .select) = q.selection := rfl
  rw [execute, run, if_neg (by rwa [List.isEmpty_iff])]
  simp only [hselection]
  cases q.stages q.selection rows <;> rfl

/-- A query is its condition, then what the other clauses make of the rows that meet it. -/
theorem execute_eq (q : Query) (rows : List Row) :
    q.execute rows =
      (q.restricted rows).map fun kept => (q.arranged kept).map q.selection.project := by
  cases rows with
  | nil =>
    have hnone : q.restricted [] = .ok [] := rfl
    rw [hnone, Except.map, arranged_nil]
    rfl
  | cons row rows =>
    have hne : row :: rows ≠ [] := List.cons_ne_nil row rows
    rw [execute_eq_map_stages q hne, rows_stages q hne]
    cases q.restricted (row :: rows) <;> rfl

theorem execute_eq_ok_iff {q : Query} {rows out : List Row} :
    q.execute rows = .ok out ↔
      ∃ kept, q.restricted rows = .ok kept ∧ (q.arranged kept).map q.selection.project = out := by
  rw [execute_eq]
  cases q.restricted rows <;> simp [Except.map]

end Query
end TableQuery
