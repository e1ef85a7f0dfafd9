import TableQuery.Proofs.Value.Strict
import TableQuery.Selection

/-! The greatest value of a column, as it is found from left to right. Only the order of greater
than is relied on: values that are not in order stay as they were found, and an integer and a float
may be equal in a comparison to numbers that differ. -/
namespace TableQuery
namespace Aggregate
open Value (Exceeds)

structure IsGreatestOf (first : Value) (vs : List Value) (best : Value) : Prop where
  mem : best ∈ vs
  kind : best.rank = first.rank
  bound : ∀ v ∈ vs, ¬ Exceeds v best

variable {first best v : Value} {vs : List Value}

theorem larger_of_exceeds (h : Exceeds v best) : larger best v = v :=
  if_pos (Value.compare?_eq_gt_iff.2 h)

theorem larger_of_not_exceeds (h : ¬ Exceeds v best) : larger best v = best :=
  if_neg (mt Value.compare?_eq_gt_iff.1 h)

theorem isGreatestOf_singleton (v : Value) : IsGreatestOf v [v] v where
  mem := List.mem_singleton_self v
  kind := rfl
  bound w hw := by
    rw [List.mem_singleton.1 hw]
    exact Value.not_exceeds_self v

/-- One more value is taken up. -/
theorem IsGreatestOf.larger (h : IsGreatestOf first vs best) (v : Value) :
    IsGreatestOf first (vs ++ [v]) (Aggregate.larger best v) := by
  by_cases hv : Exceeds v best
  · rw [larger_of_exceeds hv]
    refine ⟨List.mem_append_right vs (List.mem_singleton_self v), hv.rank_eq.trans h.kind, ?_⟩
    intro w hw
    cases List.mem_append.1 hw with
    | inl hold => exact fun hgreater => h.bound w hold (hgreater.trans hv)
    | inr hnew =>
      rw [List.mem_singleton.1 hnew]
      exact Value.not_exceeds_self v
  · rw [larger_of_not_exceeds hv]
    refine ⟨List.mem_append_left [v] h.mem, h.kind, ?_⟩
    intro w hw
    cases List.mem_append.1 hw with
    | inl hold => exact h.bound w hold
    | inr hnew => rwa [List.mem_singleton.1 hnew]

theorem IsGreatestOf.foldl_larger (h : IsGreatestOf first vs best) (rest : List Value) :
    IsGreatestOf first (vs ++ rest) (rest.foldl Aggregate.larger best) := by
  induction rest generalizing vs best with
  | nil => rwa [List.append_nil]
  | cons v rest ih =>
    have hnext := ih (h.larger v)
    rwa [List.append_assoc] at hnext

def present (rows : List Row) (column : String) : List Value :=
  (rows.map (·.value column)).filter (!·.isNull)

theorem isGreatestOf_greatest {rows : List Row} {column : String}
    (h : present rows column = first :: vs) :
    IsGreatestOf first (first :: vs) (greatest rows column) := by
  rw [greatest, ← present, h]
  exact (isGreatestOf_singleton first).foldl_larger vs

theorem not_isNull_iff : (!v.isNull) = true ↔ v ≠ .null := by
  cases v <;> simp [Value.isNull]

theorem mem_present {rows : List Row} {column : String} :
    v ∈ present rows column ↔ (∃ row ∈ rows, row.value column = v) ∧ v ≠ .null := by
  rw [present, List.mem_filter, List.mem_map, not_isNull_iff]

theorem present_eq_nil_iff {rows : List Row} {column : String} :
    present rows column = [] ↔ ∀ row ∈ rows, row.value column = .null := by
  simp only [present, List.filter_eq_nil_iff, List.forall_mem_map, not_isNull_iff, not_not]

theorem present_append (rows others : List Row) (column : String) :
    present (rows ++ others) column = present rows column ++ present others column := by
  simp only [present, List.map_append, List.filter_append]

theorem present_cons {row : Row} {column : String} (h : row.value column ≠ .null)
    (rows : List Row) : present (row :: rows) column = row.value column :: present rows column :=
  List.filter_cons_of_pos (not_isNull_iff.2 h)

/-- `best` is a maximum of the column over the rows: null where no row has a value, and otherwise
a value of the kind that is seen first, which no row has a greater value than. -/
structure IsMaximum (rows : List Row) (column : String) (best : Value) : Prop where
  null_iff : best = .null ↔ ∀ row ∈ rows, row.value column = .null
  held : best ≠ .null → ∃ row ∈ rows, row.value column = best
  kind : ∀ before row after, rows = before ++ row :: after →
    (∀ other ∈ before, other.value column = .null) → row.value column ≠ .null →
      best.rank = (row.value column).rank
  bound : ∀ row ∈ rows, (row.value column).compare? best ≠ some .gt

theorem isMaximum_null {rows : List Row} {column : String}
    (h : ∀ row ∈ rows, row.value column = .null) : IsMaximum rows column .null where
  null_iff := iff_of_true rfl h
  held hvalue := absurd rfl hvalue
  kind := by
    intro before row after hrows _ hvalue
    subst hrows
    exact absurd (h row (List.mem_append_right before List.mem_cons_self)) hvalue
  bound := by
    intro row hrow hgreater
    exact (Value.compare?_eq_gt_iff.1 hgreater).ne_null (h row hrow)

theorem isMaximum_of_present {rows : List Row} {column : String}
    (h : present rows column = first :: vs) (hbest : IsGreatestOf first (first :: vs) best) :
    IsMaximum rows column best := by
  have hmem : best ∈ present rows column := h ▸ hbest.mem
  obtain ⟨hheld, hvalue⟩ := mem_present.1 hmem
  refine ⟨iff_of_false hvalue ?_, fun _ => hheld, ?_, ?_⟩
  · intro hnull
    obtain ⟨row, hrow, he⟩ := hheld
    exact hvalue (he.symm.trans (hnull row hrow))
  · intro before row after hrows hbefore hrow
    subst hrows
    rw [present_append, present_eq_nil_iff.2 hbefore, present_cons hrow] at h
    rw [hbest.kind, (List.cons_eq_cons.1 h).1]
  · intro row hrow hgreater
    have hexceeds := Value.compare?_eq_gt_iff.1 hgreater
    have hcell := mem_present.2 ⟨⟨row, hrow, rfl⟩, hexceeds.ne_null⟩
    exact hbest.bound _ (h ▸ hcell) hexceeds

/-- The value that is found is a maximum, whatever kinds of values the column has. -/
theorem isMaximum_greatest (rows : List Row) (column : String) :
    IsMaximum rows column (greatest rows column) := by
  cases hpresent : present rows column with
  | nil =>
    have hnull : greatest rows column = .null := by rw [greatest, ← present, hpresent]
    rw [hnull]
    exact isMaximum_null (present_eq_nil_iff.1 hpresent)
  | cons first vs => exact isMaximum_of_present hpresent (isGreatestOf_greatest hpresent)

/-- The integer is greater than the float, but in a comparison it is rounded to the float. -/
example :
    let float := Value.float (Binary64.ofInteger (2 ^ 53))
    greatest [Row.ofList [("n", float)], Row.ofList [("n", .int (2 ^ 53 + 1))]] "n" = float := by
  decide +kernel

end Aggregate
end TableQuery
