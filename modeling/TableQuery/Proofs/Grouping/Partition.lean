import TableQuery.Proofs.Grouping.Classes
import TableQuery.Proofs.Row.Insertion
import Mathlib.Data.List.Forall2

/-! Grouping is the partition by the whole list of keys at once: one row for each class, in
the order in which the values of the keys were seen first. -/
namespace TableQuery.Grouping

def totals (columns : List Column) (rows : List Row) : List (String × Value) :=
  columns.filterMap fun column =>
    column.aggregate.map fun a => (column.label, a.evaluate rows column.source)

def IsSummary (columns : List Column) (rows : List Row) (out : Row) : Prop :=
  ∃ first rest, rows = first :: rest ∧
    out.columns = (first.columns ++ Fields.names (totals columns rows)).eraseDups ∧
    ∀ column, out.get? column =
      ((totals columns rows).reverse.lookup column).or (first.get? column)

/-- `cs` are the signatures of the classes, in the order of the rows of `out`. -/
structure IsPartition (columns : List Column) (keys : List String) (rows out : List Row)
    (cs : List (List Value)) : Prop where
  nodup : cs.Nodup
  occurs : ∀ c, c ∈ cs ↔ ∃ row ∈ rows, signature keys row = c
  ordered : cs.Pairwise fun c d => compare (seen keys rows c) (seen keys rows d) = .lt
  summaries : List.Forall₂ (fun c row => IsSummary columns (members keys rows c) row) cs out

theorem withAggregates_eq (columns : List Column) (rows : List Row) (row : Row) :
    withAggregates columns rows row = row.insertAll (totals columns rows) := by
  rw [withAggregates, Row.insertAll, totals, List.foldl_filterMap]
  congr 1
  funext row column
  rw [Column.evaluate?]
  cases column.aggregate <;> rfl

theorem isSummary_collapse {columns : List Column} {rows : List Row} {out : Row}
    (h : collapse columns rows = some out) : IsSummary columns rows out := by
  cases rows with
  | nil => cases h
  | cons first rest =>
    have hout : withAggregates columns (first :: rest) first = out := Option.some.inj h
    rw [withAggregates_eq] at hout
    subst hout
    exact ⟨first, rest, rfl, Row.columns_insertAll _ _, Row.get?_insertAll _ _⟩

theorem IsSummary.unique {columns : List Column} {rows : List Row} {out other : Row}
    (h : IsSummary columns rows out) (h' : IsSummary columns rows other) : out = other := by
  obtain ⟨first, rest, rfl, hcolumns, hget⟩ := h
  obtain ⟨first', rest', hrows, hcolumns', hget'⟩ := h'
  cases hrows
  refine Row.eq_of_get? (hcolumns.trans hcolumns'.symm) ?_
  intro column
  rw [hget, hget']

theorem collapse_members (columns : List Column) {keys : List String} {rows : List Row}
    {c : List Value} (h : c ∈ nested keys rows) :
    ∃ out, collapse columns (members keys rows c) = some out := by
  obtain ⟨row, hrow, hc⟩ := mem_nested.1 h
  have hmem : row ∈ members keys rows c := List.mem_filter.2 ⟨hrow, beq_iff_eq.2 hc⟩
  cases hm : members keys rows c with
  | nil => simp [hm] at hmem
  | cons first rest => exact ⟨_, rfl⟩

theorem summaries_filterMap {columns : List Column} {keys : List String} {rows : List Row}
    {cs : List (List Value)} (h : ∀ c ∈ cs, c ∈ nested keys rows) :
    List.Forall₂ (fun c row => IsSummary columns (members keys rows c) row) cs
      (cs.filterMap fun c => collapse columns (members keys rows c)) := by
  induction cs with
  | nil => exact List.Forall₂.nil
  | cons c cs ih =>
    obtain ⟨out, hout⟩ := collapse_members columns (h c List.mem_cons_self)
    simp only [List.filterMap_cons, hout]
    exact List.Forall₂.cons (isSummary_collapse hout)
      (ih fun d hd => h d (List.mem_cons_of_mem c hd))

theorem isPartition_group (columns : List Column) (keys : List String) (rows : List Row) :
    IsPartition columns keys rows (group columns keys rows) (nested keys rows) where
  nodup := nodup_nested keys rows
  occurs _ := mem_nested
  ordered := pairwise_nested keys rows
  summaries := by
    rw [group_eq_nested]
    exact summaries_filterMap fun _ h => h

theorem IsPartition.classes_unique {columns : List Column} {keys : List String}
    {rows out other : List Row} {cs ds : List (List Value)}
    (h : IsPartition columns keys rows out cs) (h' : IsPartition columns keys rows other ds) :
    cs = ds := by
  have hperm : cs.Perm ds := by
    rw [List.perm_ext_iff_of_nodup h.nodup h'.nodup]
    intro c
    rw [h.occurs, h'.occurs]
  refine List.Perm.eq_of_pairwise ?_ h.ordered h'.ordered hperm
  intro c d _ _ hcd hdc
  exact absurd hdc (Std.OrientedCmp.not_lt_of_lt hcd)

/-- Grouping by one key after the other is the partition by all keys. -/
theorem exists_isPartition_iff (columns : List Column) (keys : List String)
    (rows out : List Row) :
    (∃ cs, IsPartition columns keys rows out cs) ↔ out = group columns keys rows := by
  constructor
  · intro hex
    obtain ⟨cs, h⟩ := hex
    have hgroup := isPartition_group columns keys rows
    have hcs : cs = nested keys rows := h.classes_unique hgroup
    subst hcs
    have hunique : Relator.RightUnique fun c row => IsSummary columns (members keys rows c) row :=
      fun _ _ _ => IsSummary.unique
    exact hunique.forall₂ h.summaries hgroup.summaries
  · intro he
    subst he
    exact ⟨_, isPartition_group columns keys rows⟩

end TableQuery.Grouping
