import TableQuery.Proofs.Grouping.Partition
import TableQuery.Proofs.Row.SameFields

/-! The columns of a grouping in another order. Every aggregate is taken over the rows as they came,
and so it does not see what other columns write. As long as a label belongs to one column, the same
fields are written, whatever the order of the columns and however often one of them is named. -/
namespace TableQuery.Grouping
variable {columns others : List Column}

def IsLabelled (columns : List Column) : Prop :=
  ∀ c ∈ columns, ∀ d ∈ columns, c.label = d.label → c = d

theorem mem_totals {rows : List Row} {name : String} {v : Value} :
    (name, v) ∈ totals columns rows ↔
      ∃ c ∈ columns, c.label = name ∧ c.evaluate? rows = some v := by
  simp only [totals, Column.evaluate?, List.mem_filterMap, Option.map_eq_some_iff, Prod.mk.injEq]
  constructor
  · intro hex
    obtain ⟨c, hc, a, ha, hname, hv⟩ := hex
    exact ⟨c, hc, hname, a, ha, hv⟩
  · intro hex
    obtain ⟨c, hc, hname, a, ha, hv⟩ := hex
    exact ⟨c, hc, a, ha, hname, hv⟩

theorem isFunctional_totals (h : IsLabelled columns) (rows : List Row) :
    Fields.IsFunctional (totals columns rows) := by
  intro name v w hv hw
  obtain ⟨c, hc, hcname, hcv⟩ := mem_totals.1 hv
  obtain ⟨d, hd, hdname, hdw⟩ := mem_totals.1 hw
  obtain rfl := h c hc d hd (hcname.trans hdname.symm)
  exact Option.some.inj (hcv.symm.trans hdw)

variable (h : IsLabelled columns) (hmem : ∀ c, c ∈ columns ↔ c ∈ others)
include h hmem

theorem collapse_sameFields (rows : List Row) :
    List.Forall₂ Row.SameFields (collapse columns rows).toList (collapse others rows).toList := by
  cases rows with
  | nil => exact List.Forall₂.nil
  | cons first rest =>
    have htotals : ∀ field, field ∈ totals columns (first :: rest) ↔
        field ∈ totals others (first :: rest) := by
      intro field
      rw [mem_totals, mem_totals]
      simp only [hmem]
    simp only [collapse, List.head?_cons, Option.map_some, withAggregates_eq]
    exact List.Forall₂.cons
      (Row.sameFields_insertAll (isFunctional_totals h _) htotals first) List.Forall₂.nil

/-- The buckets are the same, and each collapses to a row of the same fields. -/
theorem group_sameFields (keys : List String) (rows : List Row) :
    List.Forall₂ Row.SameFields (group columns keys rows) (group others keys rows) := by
  induction keys generalizing rows with
  | nil => exact collapse_sameFields h hmem rows
  | cons key keys ih =>
    have hbuckets : List.Forall₂ (· = ·) (buckets (sameKey key) rows)
        (buckets (sameKey key) rows) := List.forall₂_same.2 fun _ _ => rfl
    rw [group, group]
    refine List.rel_flatMap hbuckets ?_
    intro bucket bucket' he
    obtain rfl := he
    exact ih bucket

end TableQuery.Grouping
