import TableQuery.Proofs.Grouping.Partition
import TableQuery.Proofs.Query.Origin
import TableQuery.Proofs.Row.OrderedMap

/-! How the rows of a result are made: from rows of the input, by writing values into columns and
by leaving columns out. So they are maps in the order of insertion, as all rows are. -/
namespace TableQuery

namespace Row

inductive IsMadeOf (rows : List Row) : Row → Prop
  | given {row : Row} (h : row ∈ rows) : IsMadeOf rows row
  | insert {row : Row} (h : IsMadeOf rows row) (column : String) (v : Value) :
      IsMadeOf rows (row.insert column v)
  | filter {row : Row} (h : IsMadeOf rows row) (keep : String → Value → Bool) :
      IsMadeOf rows (row.filter keep)

variable {rows kept : List Row} {row : Row}

theorem IsMadeOf.insertAll (h : IsMadeOf rows row) (fields : List (String × Value)) :
    IsMadeOf rows (row.insertAll fields) := by
  induction fields generalizing row with
  | nil => exact h
  | cons field rest ih => exact ih (h.insert field.1 field.2)

theorem IsMadeOf.of_subset (h : IsMadeOf kept row) (hkept : ∀ row ∈ kept, row ∈ rows) :
    IsMadeOf rows row := by
  induction h with
  | given hmem => exact .given (hkept _ hmem)
  | insert _ column v ih => exact ih.insert column v
  | filter _ keep ih => exact ih.filter keep

end Row

/-- A group becomes its first row, with the totals inserted. -/
theorem Grouping.isMadeOf_group {columns : List Column} {keys : List String} {rows : List Row}
    {row : Row} (h : row ∈ group columns keys rows) : Row.IsMadeOf rows row := by
  induction keys generalizing rows with
  | nil =>
    cases rows with
    | nil => cases h
    | cons first rest =>
      obtain rfl : row = withAggregates columns (first :: rest) first := List.mem_singleton.1 h
      rw [withAggregates_eq]
      exact (Row.IsMadeOf.given List.mem_cons_self).insertAll _
  | cons key keys ih =>
    rw [group, List.mem_flatMap] at h
    obtain ⟨bucket, hbucket, hrow⟩ := h
    have hbuckets : buckets (sameKey key) rows = _ := buckets_eq (keyOf key) rows
    rw [hbuckets, List.mem_map] at hbucket
    obtain ⟨v, -, rfl⟩ := hbucket
    exact (ih hrow).of_subset fun _ hmem => (List.mem_filter.1 hmem).1

theorem Selection.isMadeOf_project {rows : List Row} {row : Row} (h : row.IsMadeOf rows)
    (s : Selection) : (s.project row).IsMadeOf rows := by
  rw [project]
  split
  · exact h
  · exact h.filter _

namespace Query
variable {q : Query} {rows kept out : List Row} {row : Row}

theorem isMadeOf_arranged (h : row ∈ q.arranged rows) : row.IsMadeOf rows := by
  have hsorted : row ∈ q.sorted (q.grouped rows) :=
    (skipped_sublist q _).subset ((limited_sublist q _).subset h)
  have hgrouped : row ∈ q.grouped rows := (List.mergeSort_perm _ _).mem_iff.1 hsorted
  rw [grouped] at hgrouped
  split at hgrouped
  · exact .given hgrouped
  · exact Grouping.isMadeOf_group hgrouped

theorem isMadeOf_execute (h : q.execute rows = .ok out) (hrow : row ∈ out) :
    row.IsMadeOf rows := by
  obtain ⟨kept, hkept, rfl⟩ := execute_eq_ok_iff.1 h
  obtain ⟨arranged, harranged, rfl⟩ := List.mem_map.1 hrow
  have hmade : arranged.IsMadeOf rows :=
    (isMadeOf_arranged harranged).of_subset fun _ hmem => (restricted_sublist hkept).subset hmem
  exact Selection.isMadeOf_project hmade _

end Query

namespace Row

/-- Rows are the lists of fields that the operations on fields reach, and they are maps in the order
of insertion: so is every row that is inserted into or reduced, that is collected from fields or
from a document, or that grouping or a query gives. -/
theorem isInsertionOrderedMap :
    (∀ fields : List (String × Value), Fields.IsReached fields ↔ ∃ row : Row, row.fields = fields) ∧
    (∀ row : Row, row.IsMap) ∧
    (∀ (row : Row) (column : String) (v : Value),
      IsInserted row column v (row.insert column v)) ∧
    (∀ (keep : String → Value → Bool) (row : Row), IsKept keep row (row.filter keep)) ∧
    (∀ fields : List (String × Value), IsCollected fields (ofList fields)) ∧
    (∀ members : List (String × Json), ∃ row, ofJson (.object members) = .ok row ∧
      IsCollected (members.map fun m => (m.1, Value.ofJson m.2)) row) ∧
    (∀ (columns : List Column) (keys : List String) (rows : List Row),
      ∀ row ∈ Grouping.group columns keys rows, row.IsMadeOf rows) ∧
    ∀ (q : Query) (rows out : List Row), q.execute rows = .ok out →
      ∀ row ∈ out, row.IsMadeOf rows := by
  refine ⟨?_, isMap, isInserted_insert, isKept_filter, isCollected_ofList, ?_, ?_, ?_⟩
  · intro fields
    rw [Fields.isReached_iff]
    exact ⟨fun h => ⟨⟨fields, h⟩, rfl⟩, fun ⟨row, he⟩ => he ▸ row.nodup⟩
  · exact fun members => ⟨_, rfl, isCollected_ofList _⟩
  · exact fun columns keys rows row hrow => Grouping.isMadeOf_group hrow
  · exact fun q rows out h row hrow => Query.isMadeOf_execute h hrow

/-- The sum overwrites the field that the first row has of its name, and the projection leaves that
row's number out. -/
theorem isInsertionOrderedMap_sum_of_group :
    let q : Query := { select := some "sum(n), k", groupBy := some "k" }
    let rows := [ofList [("sum(n)", .null), ("k", .int 1), ("n", .int 2)],
      ofList [("n", .int 3), ("k", .int 1)]]
    let out := [ofList [("sum(n)", .float (Binary64.ofInteger 5)), ("k", .int 1)]]
    q.execute rows = .ok out ∧ ∀ row ∈ out, row.IsMadeOf rows := by
  intro q rows out
  have hout : q.execute rows = .ok out := by decide +kernel
  exact ⟨hout, isInsertionOrderedMap.2.2.2.2.2.2.2 q rows out hout⟩

end Row
end TableQuery
