import TableQuery.Selection

/-! Grouping rows by keys, one key after the other. Groups come in the order of the first
row of each, and each becomes its first row with the aggregates of the whole group. -/
namespace TableQuery.Grouping
open TableQuery.Text

def keysOf (clause : String) : List String :=
  (((terms clause.toList).map trim).filter (!·.isEmpty)).map String.ofList

def sameKey (key : String) (a b : Row) : Bool :=
  (a.value key).groupKey == (b.value key).groupKey

def buckets (same : Row → Row → Bool) : List Row → List (List Row)
  | [] => []
  | row :: rows =>
    (row :: rows.filter (same row)) :: buckets same (rows.filter fun r => !same row r)
termination_by rows => rows.length
decreasing_by
  rw [List.length_unattach, List.length_cons]
  exact Nat.lt_succ_of_le (Nat.le_trans (List.length_filter_le _ _) (by simp))

def withAggregates (columns : List Column) (group : List Row) (row : Row) : Row :=
  columns.foldl (fun row column =>
    match column.evaluate? group with
    | some v => row.insert column.label v
    | none => row) row

def collapse (columns : List Column) (group : List Row) : Option Row :=
  group.head?.map (withAggregates columns group)

def group (columns : List Column) : List String → List Row → List Row
  | [], rows => (collapse columns rows).toList
  | key :: keys, rows => (buckets (sameKey key) rows).flatMap (group columns keys)

end TableQuery.Grouping
