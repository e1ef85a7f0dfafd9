import TableQuery.Proofs.Sorting.Comparison

/-! The orders of sorting, on values and on rows, are total preorders. Rows without a value in
the column of a term stand together at one end. -/
namespace TableQuery

structure IsTotalPreorder {α : Type} (cmp : α → α → Ordering) : Prop where
  swap : ∀ a b, cmp b a = (cmp a b).swap
  trans : ∀ a b c, (cmp a b).isLE → (cmp b c).isLE → (cmp a c).isLE
  strict_left : ∀ a b c, cmp a b = .lt → (cmp b c).isLE → cmp a c = .lt
  strict_right : ∀ a b c, (cmp a b).isLE → cmp b c = .lt → cmp a c = .lt
  alike : Equivalence fun a b => cmp a b = .eq

theorem isTotalPreorder {α : Type} (cmp : α → α → Ordering) [Std.TransCmp cmp] :
    IsTotalPreorder cmp where
  swap _ _ := Std.OrientedCmp.eq_swap
  trans _ _ _ := Std.TransCmp.isLE_trans
  strict_left _ _ _ := Std.TransCmp.lt_of_lt_of_isLE
  strict_right _ _ _ := Std.TransCmp.lt_of_isLE_of_lt
  alike := ⟨fun _ => Std.ReflCmp.compare_self, Std.OrientedCmp.eq_symm, Std.TransCmp.eq_trans⟩

def Row.Lacks (row : Row) (column : String) : Prop :=
  row.get? column = none ∨ row.get? column = some .null

theorem Row.lacks_iff {row : Row} {column : String} :
    row.Lacks column ↔ (row.value column).isNull = true := by
  rw [Lacks, value]
  cases row.get? column with
  | none => simp [Value.isNull]
  | some v => cases v <;> simp [Value.isNull]

namespace SortTerm

structure SetsApart (t : SortTerm) : Prop where
  alike : ∀ a b : Row, a.Lacks t.column → b.Lacks t.column → t.compare a b = .eq
  last : t.direction = .ascending →
    ∀ a b : Row, a.Lacks t.column → ¬ b.Lacks t.column → t.compare a b = .gt
  first : t.direction = .descending →
    ∀ a b : Row, a.Lacks t.column → ¬ b.Lacks t.column → t.compare a b = .lt

theorem compare_of_lacks {t : SortTerm} {a b : Row} (ha : a.Lacks t.column) :
    t.compare a b =
      t.direction.apply (if (b.value t.column).isNull then .eq else .gt) := by
  rw [SortTerm.compare, nullsLast, Row.lacks_iff.1 ha]
  cases (b.value t.column).isNull <;> rfl

theorem setsApart (t : SortTerm) : t.SetsApart where
  alike a b ha hb := by
    rw [compare_of_lacks ha, if_pos (Row.lacks_iff.1 hb)]
    cases t.direction <;> rfl
  last hdirection a b ha hb := by
    rw [compare_of_lacks ha, if_neg (mt Row.lacks_iff.2 hb), hdirection, Direction.apply]
  first hdirection a b ha hb := by
    rw [compare_of_lacks ha, if_neg (mt Row.lacks_iff.2 hb), hdirection, Direction.apply]
    rfl

/-- Sorting compares values, and by each term rows, in a total preorder. -/
theorem sortCompare_and_compare_isTotalPreorder :
    IsTotalPreorder Value.sortCompare ∧
      ∀ t : SortTerm, IsTotalPreorder t.compare ∧ t.SetsApart :=
  ⟨isTotalPreorder Value.sortCompare, fun t => ⟨isTotalPreorder t.compare, setsApart t⟩⟩

end SortTerm
end TableQuery
