import TableQuery.Proofs.Value.SortOrder
import TableQuery.Sorting

/-! Comparing rows by a list of sort terms is a total preorder, decided by the first term
that tells the rows apart. -/
namespace TableQuery.SortTerm
open Std

theorem nullsLast_eq (a b : Value) :
    nullsLast a b = compareLex (compareOn Value.isNull) Value.sortCompare a b := by
  cases a <;> cases b <;> rfl

instance : TransCmp nullsLast := by
  have h : nullsLast = compareLex (compareOn Value.isNull) Value.sortCompare := by
    funext a b
    exact nullsLast_eq a b
  rw [h]
  infer_instance

instance (d : Direction) : TransCmp fun a b => d.apply (nullsLast a b) := by
  cases d with
  | ascending => exact inferInstanceAs (TransCmp nullsLast)
  | descending =>
    have h : (fun a b => (nullsLast a b).swap) = fun a b => nullsLast b a := by
      funext a b
      exact OrientedCmp.eq_swap.symm
    change TransCmp fun a b => (nullsLast a b).swap
    rw [h]
    infer_instance

instance (t : SortTerm) : TransCmp t.compare := by
  have h : TransCmp fun a b => t.direction.apply (nullsLast a b) := inferInstance
  exact { eq_swap := h.eq_swap, isLE_trans := h.isLE_trans }

instance (ts : List SortTerm) : TransCmp (compareAll ts) := by
  induction ts with
  | nil => exact { eq_swap := rfl, isLE_trans := fun _ _ => rfl }
  | cons t ts ih => exact inferInstanceAs (TransCmp (compareLex t.compare (compareAll ts)))

theorem compareAll_swap (ts : List SortTerm) (a b : Row) :
    compareAll ts b a = (compareAll ts a b).swap := OrientedCmp.eq_swap

def verdict? (ts : List SortTerm) (a b : Row) : Option Ordering :=
  (ts.map fun t => t.compare a b).find? (· ≠ .eq)

theorem compareAll_eq (ts : List SortTerm) (a b : Row) :
    compareAll ts a b = (verdict? ts a b).getD .eq := by
  induction ts with
  | nil => rfl
  | cons t ts ih =>
    rw [compareAll, ih]
    cases h : t.compare a b <;> simp [verdict?, h]

theorem compareAll_eq_eq_iff {ts : List SortTerm} {a b : Row} :
    compareAll ts a b = .eq ↔ ∀ t ∈ ts, t.compare a b = .eq := by
  induction ts with
  | nil => simp [compareAll]
  | cons t ts ih => simp [compareAll, ih]

theorem compareAll_isLE_iff {ts : List SortTerm} {a b : Row} :
    (compareAll ts a b).isLE ↔ verdict? ts a b = none ∨ verdict? ts a b = some .lt := by
  rw [compareAll_eq]
  have hne : verdict? ts a b ≠ some .eq := by
    intro h
    simpa using List.find?_some h
  cases h : verdict? ts a b with
  | none => simp
  | some o => cases o <;> simp_all

end TableQuery.SortTerm
