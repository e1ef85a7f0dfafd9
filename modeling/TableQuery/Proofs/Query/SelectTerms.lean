import TableQuery.Proofs.Grouping.Columns
import TableQuery.Proofs.Query.Agreement
import TableQuery.Proofs.Query.Origin
import TableQuery.Proofs.Text.Terms

/-! The order of the terms in a select clause, and their number. Without groups they only say which
fields are shown. With groups they also say which totals are written, and the fields of a row come in
the order in which they are written first; nothing else in a result depends on the order. -/
namespace TableQuery
open TableQuery.Text

theorem Query.getD_clause? (q : Query) (c : Clause) :
    (q.clause? c).getD "" = trimmed ((q.get? c).getD "") := by
  rw [clause?]
  cases q.get? c with
  | none => rfl
  | some text =>
    rw [Option.map_some, Option.filter_some, Option.getD_some]
    by_cases hempty : trimmed text = ""
    · rw [hempty]
      rfl
    · rw [if_pos (decide_eq_true hempty), Option.getD_some]

namespace Selection

theorem termsOf_clause? (q : Query) : termsOf (q.clause? .select) = termsOf q.select := by
  rw [termsOf, termsOf, q.getD_clause? .select, trimmed, String.toList_ofList, map_trim_terms_trim,
    Query.get?]

theorem isLabelled_columns (clause : Option String) :
    Grouping.IsLabelled (ofClause clause).columns := by
  intro c hc d hd hlabel
  rw [← ofExpression_label hc, ← ofExpression_label hd, hlabel]

namespace SameTerms
variable {clause other : Option String}

theorem project_sameFields (h : SameTerms clause other) {a b : Row} (hab : a.SameFields b) :
    ((ofClause clause).project a).SameFields ((ofClause other).project b) := by
  intro field
  rw [fields_project, fields_project, List.mem_filter, List.mem_filter, hab, h.shows_eq]

theorem project_eq (h : SameTerms clause other) (row : Row) :
    (ofClause clause).project row = (ofClause other).project row := by
  refine Row.ext_fields ?_
  simp only [fields_project, h.shows_eq]

end SameTerms
end Selection

namespace Query
variable {q : Query} {select : Option String} {rows others : List Row}

theorem sameTerms_clause? (h : Selection.SameTerms q.select select) :
    Selection.SameTerms (q.clause? .select) ({ q with select := select }.clause? .select) := by
  rw [Selection.SameTerms, Selection.termsOf_clause?, Selection.termsOf_clause?]
  exact h

theorem grouped_sameFields (h : Selection.SameTerms q.select select) (rows : List Row) :
    List.Forall₂ Row.SameFields (q.grouped rows) ({ q with select := select }.grouped rows) := by
  have hterms := sameTerms_clause? h
  have hgroupBy : { q with select := select }.clause? .groupBy = q.clause? .groupBy := rfl
  rw [grouped, grouped, hgroupBy]
  cases Grouping.keysOf ((q.clause? .groupBy).getD "") with
  | nil => exact List.forall₂_same.2 fun row _ => Row.SameFields.refl row
  | cons key keys =>
    exact Grouping.group_sameFields (Selection.isLabelled_columns _) hterms.mem_columns_iff
      (key :: keys) rows

/-- Sorting looks at values, and not at the order of fields. -/
theorem sorted_sameFields (h : List.Forall₂ Row.SameFields rows others) :
    List.Forall₂ Row.SameFields (q.sorted rows) (q.sorted others) := by
  refine SortTerm.forall₂_mergeSort ?_ h
  intro a a' b b' ha hb
  rw [SortTerm.compareAll_congr (U := Set.univ) (fun _ _ => trivial) (ha.agreeOn _) (hb.agreeOn _)]

theorem skipped_sameFields (h : List.Forall₂ Row.SameFields rows others) :
    List.Forall₂ Row.SameFields (q.skipped rows) (q.skipped others) := by
  rw [skipped, skipped]
  cases q.clause? .offset with
  | none => exact h
  | some text =>
    rw [Option.elim_some, Option.elim_some, Paging.offset, Paging.offset]
    exact List.forall₂_drop (Paging.count text.toList) h

theorem limited_sameFields (h : List.Forall₂ Row.SameFields rows others) :
    List.Forall₂ Row.SameFields (q.limited rows) (q.limited others) := by
  rw [limited, limited]
  cases q.clause? .limit with
  | none => exact h
  | some text =>
    rw [Option.elim_some, Option.elim_some, Paging.limit, Paging.limit]
    exact List.forall₂_take (Paging.count text.toList) h

theorem arranged_sameFields (h : Selection.SameTerms q.select select) (rows : List Row) :
    List.Forall₂ Row.SameFields (q.arranged rows) ({ q with select := select }.arranged rows) :=
  limited_sameFields (skipped_sameFields (sorted_sameFields (grouped_sameFields h rows)))

/-- Without groups the terms of the select clause have no say before the rows are projected. -/
theorem arranged_eq_of_hasNoTerms (hgroup : HasNoTerms (q.clause? .groupBy))
    (select : Option String) (rows : List Row) :
    { q with select := select }.arranged rows = q.arranged rows := by
  have hgroup' : HasNoTerms ({ q with select := select }.clause? .groupBy) := hgroup
  rw [arranged, arranged, grouped_of_hasNoTerms hgroup, grouped_of_hasNoTerms hgroup']
  rfl

/-- The terms of a select clause may come in any order and any number of times. -/
theorem execute_alike_of_sameTerms (h : Selection.SameTerms q.select select) (rows : List Row) :
    Alike (List.Forall₂ Row.SameFields) (q.execute rows)
        ({ q with select := select }.execute rows) ∧
      (HasNoTerms (q.clause? .groupBy) →
        q.execute rows = { q with select := select }.execute rows) := by
  have hterms := sameTerms_clause? h
  have hrestricted : { q with select := select }.restricted rows = q.restricted rows := rfl
  rw [execute_eq, execute_eq, hrestricted]
  constructor
  · cases q.restricted rows with
    | error e => exact Alike.error e
    | ok kept =>
      refine Alike.ok ?_
      rw [List.forall₂_map_left_iff, List.forall₂_map_right_iff]
      exact (arranged_sameFields h kept).imp fun _ _ hab => hterms.project_sameFields hab
  · intro hgroup
    cases q.restricted rows with
    | error e => rfl
    | ok kept =>
      rw [Except.map, Except.map, arranged_eq_of_hasNoTerms hgroup select kept]
      exact congrArg Except.ok (List.map_congr_left fun row _ => hterms.project_eq row)

/-- The totals are written in another order, and the rows are sorted by one of them. -/
theorem execute_alike_rearranged :
    let q : Query :=
      { select := some "sum(n), k, max(n)"
        groupBy := some "k"
        orderBy := some "max(n) desc" }
    let other := some "max(n),k ,, sum(n), k"
    let rows := [Row.ofList [("k", .text "a"), ("n", .int 1)],
      Row.ofList [("k", .text "b"), ("n", .int 2)]]
    let ungrouped := { q with groupBy := none }
    Selection.SameTerms q.select other ∧ HasNoTerms (ungrouped.clause? .groupBy) ∧
      Alike (List.Forall₂ Row.SameFields) (q.execute rows)
        ({ q with select := other }.execute rows) ∧
      ungrouped.execute rows = { ungrouped with select := other }.execute rows := by
  intro q other rows ungrouped
  have hterms : Selection.SameTerms q.select other := by decide
  have hgroup : HasNoTerms (ungrouped.clause? .groupBy) := by
    intro text htext
    cases htext
  have hungrouped : Selection.SameTerms ungrouped.select other := hterms
  have halike := execute_alike_of_sameTerms hterms rows
  have hsame := execute_alike_of_sameTerms hungrouped rows
  exact ⟨hterms, hgroup, halike.1, hsame.2 hgroup⟩

end Query
end TableQuery
