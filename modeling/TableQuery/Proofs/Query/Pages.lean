import Mathlib.Data.List.Forall2
import TableQuery.Proofs.Paging
import TableQuery.Proofs.Query.Stages
import TableQuery.Proofs.Sorting.Stability

/-! Pages of a query's result. A page is a slice of what the query gives without limit and
offset, and all pages laid one after the other are the whole of it. -/
namespace TableQuery.Query
open TableQuery.Text

def page (q : Query) (start size : Nat) : Query :=
  { q with offset := some (decimal start), limit := some (decimal size) }

theorem clause?_of_get?_eq_decimal {q : Query} {c : Clause} {n : Nat}
    (h : q.get? c = some (decimal n)) : q.clause? c = some (decimal n) := by
  rw [clause?, h, Option.map_some, trimmed_decimal, Option.filter_some, if_pos]
  exact decide_eq_true (decimal_ne_empty n)

theorem arranged_of_unpaged {q : Query} (hoffset : q.clause? .offset = none)
    (hlimit : q.clause? .limit = none) (rows : List Row) :
    q.arranged rows = q.sorted (q.grouped rows) := by
  rw [arranged, limited, skipped, hoffset, hlimit]
  rfl

theorem arranged_page (q : Query) {start size : Nat} (hstart : start ≤ Paging.maxCount)
    (hsize : size ≤ Paging.maxCount) (rows : List Row) :
    (q.page start size).arranged rows = ((q.sorted (q.grouped rows)).drop start).take size := by
  have hoffset : (q.page start size).clause? .offset = some (decimal start) :=
    clause?_of_get?_eq_decimal rfl
  have hlimit : (q.page start size).clause? .limit = some (decimal size) :=
    clause?_of_get?_eq_decimal rfl
  rw [arranged, limited, skipped, hoffset, hlimit, Option.elim_some, Option.elim_some,
    Paging.count_decimal hstart, Paging.count_decimal hsize]
  rfl

variable {q : Query} {rows out : List Row}

theorem execute_page (hoffset : q.clause? .offset = none) (hlimit : q.clause? .limit = none)
    (h : q.execute rows = .ok out) {start size : Nat} (hstart : start ≤ Paging.maxCount)
    (hsize : size ≤ Paging.maxCount) :
    (q.page start size).execute rows = .ok ((out.drop start).take size) := by
  have hrestricted : (q.page start size).restricted rows = q.restricted rows := rfl
  have hproject : (q.page start size).selection = q.selection := rfl
  rw [execute_eq] at h ⊢
  rw [hrestricted, hproject]
  cases hkept : q.restricted rows with
  | error e =>
    rw [hkept] at h
    cases h
  | ok kept =>
    rw [hkept, Except.map, Except.ok.injEq, arranged_of_unpaged hoffset hlimit] at h
    rw [Except.map, arranged_page q hstart hsize, List.map_take, List.map_drop, h]

/-- A page is a slice of the whole result, and pages of one size, from the first to one that
reaches the end, are the whole result. -/
theorem execute_pages (hoffset : q.clause? .offset = none) (hlimit : q.clause? .limit = none)
    (h : q.execute rows = .ok out) :
    (∀ start size, start ≤ Paging.maxCount → size ≤ Paging.maxCount →
      (q.page start size).execute rows = .ok ((out.drop start).take size)) ∧
    ∀ size pages, 0 < size → size ≤ Paging.maxCount →
      (∀ k < pages, k * size ≤ Paging.maxCount) → out.length ≤ pages * size →
      ∃ slices, List.Forall₂ (fun k slice => (q.page (k * size) size).execute rows = .ok slice)
        (List.range pages) slices ∧ slices.flatten = out := by
  refine ⟨fun start size => execute_page hoffset hlimit h, ?_⟩
  intro size pages _ hsize hstart hend
  refine ⟨(List.range pages).map fun k => (out.drop (k * size)).take size, ?_, ?_⟩
  · rw [List.forall₂_map_right_iff, List.forall₂_same]
    intro k hk
    exact execute_page hoffset hlimit h (hstart k (List.mem_range.1 hk)) hsize
  · rw [Paging.flatten_pages, List.take_of_length_le hend]

/-- Two pages of two rows, the second of them not full. The pages part rows that the order does
not tell apart. -/
theorem execute_pages_of_two :
    let q : Query := { condition := some "n > 1", orderBy := some "n desc", offset := some " " }
    let rows := [Row.ofList [("n", .int 2), ("m", .int 7)], Row.ofList [("n", .int 1)],
      Row.ofList [("n", .int 4), ("m", .null)], Row.ofList [("n", .int 2), ("m", .int 5)]]
    let out := [rows[2], rows[0], rows[3]]
    q.clause? .offset = none ∧ q.clause? .limit = none ∧ q.execute rows = .ok out ∧
      (q.page 1 1).execute rows = .ok [rows[0]] ∧
      ∃ slices, List.Forall₂ (fun k slice => (q.page (k * 2) 2).execute rows = .ok slice)
        [0, 1] slices ∧ slices.flatten = out := by
  intro q rows out
  have hoffset : q.clause? .offset = none := by decide
  have hlimit : q.clause? .limit = none := by decide
  have hkept : q.restricted rows = .ok [rows[0], rows[2], rows[3]] := by decide +kernel
  have hsorted : q.sorted [rows[0], rows[2], rows[3]] = out := by
    have htagged : [(rows[2], 1), (rows[0], 0), (rows[3], 2)].Perm
        [rows[0], rows[2], rows[3]].zipIdx := by decide
    exact (SortTerm.map_fst_eq_sort htagged (by decide)).symm
  have hout : q.execute rows = .ok out := by
    rw [execute_eq, hkept, Except.map, arranged_of_unpaged hoffset hlimit]
    exact congrArg (fun l => Except.ok (l.map q.selection.project)) hsorted
  obtain ⟨hpage, hpages⟩ := execute_pages hoffset hlimit hout
  exact ⟨hoffset, hlimit, hout, hpage 1 1 (by decide) (by decide),
    hpages 2 2 (by decide) (by decide) (by decide) (by decide)⟩

end TableQuery.Query
