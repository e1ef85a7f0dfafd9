import TableQuery.Proofs.Sorting.Comparison
import TableQuery.Proofs.StableSort

/-! Sorting in turn and backwards. The terms of a list may be sorted by one group after the other,
the last group first, and a sort with all directions turned round reads a list from its end. -/
namespace TableQuery

def Direction.flipped : Direction → Direction
  | ascending => descending
  | descending => ascending

theorem Direction.apply_flipped (d : Direction) (o : Ordering) :
    d.flipped.apply o = (d.apply o).swap := by
  cases d with
  | ascending => rfl
  | descending => exact (Ordering.swap_swap).symm

namespace SortTerm
open StableSort

def flipped (t : SortTerm) : SortTerm := { t with direction := t.direction.flipped }

theorem compareAll_append (A B : List SortTerm) (a b : Row) :
    compareAll (A ++ B) a b = (compareAll A a b).then (compareAll B a b) := by
  induction A with
  | nil => rfl
  | cons t A ih => rw [List.cons_append, compareAll, compareAll, ih, Ordering.then_assoc]

theorem compareAll_flipped (ts : List SortTerm) (a b : Row) :
    compareAll (ts.map flipped) a b = (compareAll ts a b).swap := by
  induction ts with
  | nil => rfl
  | cons t ts ih =>
    have hterm : t.flipped.compare a b = (t.compare a b).swap := Direction.apply_flipped _ _
    rw [List.map_cons, compareAll, compareAll, ih, hterm, Ordering.swap_then]

theorem alike_append (A B : List SortTerm) (a : Row) (rows : List Row) :
    alike (compareAll (A ++ B)) a rows =
      alike (compareAll A) a (alike (compareAll B) a rows) := by
  rw [alike, alike, alike, List.filter_filter]
  refine List.filter_congr fun b _ => ?_
  rw [compareAll_append, Bool.eq_iff_iff]
  simp only [Ordering.then_eq_eq, Bool.and_eq_true, decide_eq_true_iff]

theorem alike_comm (A B : List SortTerm) (a : Row) (rows : List Row) :
    alike (compareAll A) a (alike (compareAll B) a rows) =
      alike (compareAll B) a (alike (compareAll A) a rows) := by
  rw [alike, alike, alike, alike, List.filter_filter, List.filter_filter]
  refine List.filter_congr fun b _ => Bool.and_comm _ _

variable (ts A B : List SortTerm) (rows : List Row)

theorem pairwise_sort : (sort ts rows).Pairwise fun a b => (compareAll ts a b).isLE :=
  pairwise_mergeSort rows

theorem alike_sort (a : Row) :
    alike (compareAll ts) a (sort ts rows) = alike (compareAll ts) a rows :=
  alike_mergeSort a rows

/-- Rows in the order of `B` come out in the order of `A` and then of `B`. -/
theorem pairwise_sort_append {rows : List Row}
    (h : rows.Pairwise fun a b => (compareAll B a b).isLE) :
    (sort A rows).Pairwise fun a b => (compareAll (A ++ B) a b).isLE := by
  rw [List.pairwise_iff_forall_sublist]
  intro a b hsorted
  have hle := List.pairwise_iff_forall_sublist.1 (pairwise_sort A rows) hsorted
  rw [compareAll_append]
  cases hab : compareAll A a b with
  | lt => rfl
  | eq =>
    have hrows : [a, b].Sublist rows := sublist_of_mergeSort hab hsorted
    exact List.pairwise_iff_forall_sublist.1 h hrows
  | gt =>
    rw [hab] at hle
    cases hle

/-- Sorting by the terms of `A` and `B` is sorting by those of `B`, and the result by those of
`A`. -/
theorem sort_append : sort (A ++ B) rows = sort A (sort B rows) := by
  refine eq_of_alike (pairwise_sort (A ++ B) rows)
    (pairwise_sort_append A B (pairwise_sort B rows)) ?_
  intro a
  calc
    alike (compareAll (A ++ B)) a (sort (A ++ B) rows)
        = alike (compareAll A) a (alike (compareAll B) a rows) := by
          rw [alike_sort, alike_append]
    _ = alike (compareAll B) a (alike (compareAll A) a (sort B rows)) := by
          rw [← alike_sort B, alike_comm]
    _ = alike (compareAll B) a (alike (compareAll A) a (sort A (sort B rows))) := by
          rw [alike_sort A]
    _ = alike (compareAll (A ++ B)) a (sort A (sort B rows)) := by
          rw [alike_comm, alike_append]

theorem alike_flipped (a : Row) :
    alike (compareAll (ts.map flipped)) a rows = alike (compareAll ts) a rows := by
  refine List.filter_congr fun b _ => decide_eq_decide.2 ?_
  rw [compareAll_flipped, Ordering.swap_eq_eq]

/-- With all directions turned round, the rows from last to first come out from last to first. -/
theorem sort_flipped_reverse :
    sort (ts.map flipped) rows.reverse = (sort ts rows).reverse := by
  have horder : (sort ts rows).reverse.Pairwise fun a b =>
      (compareAll (ts.map flipped) a b).isLE := by
    rw [List.pairwise_reverse]
    refine (pairwise_sort ts rows).imp ?_
    intro a b h
    rwa [compareAll_flipped, ← compareAll_swap]
  refine eq_of_alike (pairwise_sort (ts.map flipped) rows.reverse) horder ?_
  intro a
  calc
    alike (compareAll (ts.map flipped)) a (sort (ts.map flipped) rows.reverse)
        = alike (compareAll ts) a rows.reverse := by rw [alike_sort, alike_flipped]
    _ = (alike (compareAll ts) a rows).reverse := List.filter_reverse
    _ = (alike (compareAll ts) a (sort ts rows)).reverse := by rw [alike_sort]
    _ = alike (compareAll ts) a (sort ts rows).reverse := List.filter_reverse.symm
    _ = alike (compareAll (ts.map flipped)) a (sort ts rows).reverse := by rw [alike_flipped]

/-- A sort by many terms is made of sorts by some of them, and the sort with the directions turned
round is the same one read backwards. -/
theorem sort_splits_and_reverses (rows : List Row) :
    (∀ A B : List SortTerm, sort (A ++ B) rows = sort A (sort B rows)) ∧
      ∀ ts : List SortTerm, sort (ts.map flipped) rows.reverse = (sort ts rows).reverse :=
  ⟨fun A B => sort_append A B rows, fun ts => sort_flipped_reverse ts rows⟩

end SortTerm
end TableQuery
