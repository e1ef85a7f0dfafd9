import TableQuery.Proofs.Condition.Reading
import TableQuery.Proofs.Grouping.Classes
import TableQuery.Proofs.Journal.Gate
import TableQuery.Proofs.Journal.Span
import TableQuery.Proofs.Query.Origin

/-! What a run of a query tells: its beginning, a stage for each clause that asks for one, and its
end. No stage adds rows, and the settings of an engine choose among the events only. -/
namespace TableQuery
open TableQuery.Text

inductive Stage where
  | condition
  | groups
  | order
  | offset
  | limit
deriving DecidableEq

namespace Stage

def all : List Stage := [condition, groups, order, offset, limit]

def name : Stage → String
  | condition => "WHERE"
  | groups => "GROUP_BY"
  | order => "ORDER_BY"
  | offset => "OFFSET"
  | limit => "LIMIT"

def runs (q : Query) : Stage → Bool
  | condition => (q.clause? .condition).isSome
  | groups => Grouping.keysOf ((q.clause? .groupBy).getD "") ≠ []
  | order => (q.clause? .orderBy).isSome
  | offset => (q.clause? .offset).isSome
  | limit => (q.clause? .limit).isSome

def rowsAfter (q : Query) (kept : List Row) : Stage → List Row
  | condition => kept
  | groups => q.grouped kept
  | order => q.sorted (q.grouped kept)
  | offset => q.skipped (q.sorted (q.grouped kept))
  | limit => q.arranged kept

def count (q : Query) (kept : List Row) (s : Stage) : Nat := (s.rowsAfter q kept).length

end Stage

namespace Query
variable {q : Query} {rows kept : List Row}

theorem trim_ne_nil_of_clause? {c : Clause} {text : String} (h : q.clause? c = some text) :
    trim text.toList ≠ [] := by
  obtain ⟨htext, hne⟩ := Option.filter_eq_some_iff.1 h
  obtain ⟨raw, -, rfl⟩ := Option.map_eq_some_iff.1 htext
  intro hnil
  rw [trimmed, String.toList_ofList, trim_trim] at hnil
  rw [trimmed, hnil] at hne
  cases hne

end Query

def Span.Action.IsStepOf (s : Stage) (rows : Nat) (a : Span.Action) : Prop :=
  ∃ details : List (String × String), details.lookup "rows" = none ∧
    a = .step s.name (details ++ [("rows", decimal rows)])

namespace Progress
variable {q : Query} {kept : List Row} {done : List Stage} {p : Progress}

def HasTold (q : Query) (kept : List Row) (done : List Stage) (p : Progress) : Prop :=
  List.Forall₂ (fun s a => a.IsStepOf s (s.count q kept)) (done.filter (·.runs q)) p.steps

theorem HasTold.pass (h : HasTold q kept done p) {s : Stage} (hs : s.runs q = false) :
    HasTold q kept (done ++ [s]) p := by
  rw [HasTold, List.filter_append, List.filter_cons_of_neg (by simp [hs]), List.filter_nil,
    List.append_nil]
  exact h

theorem HasTold.next (h : HasTold q kept done p) {s : Stage} (hs : s.runs q = true)
    {details : List (String × String)} (hdetails : details.lookup "rows" = none)
    {rows : List Row} (hrows : rows = s.rowsAfter q kept) :
    HasTold q kept (done ++ [s]) (p.next s.name details rows) := by
  rw [HasTold, List.filter_append, List.filter_cons_of_pos hs, List.filter_nil]
  refine List.rel_append h (.cons ⟨details, hdetails, ?_⟩ .nil)
  rw [hrows, Stage.count]

theorem HasTold.group (h : HasTold q kept done p) (hrows : p.rows = kept) :
    HasTold q kept (done ++ [.groups]) (p.group q.selection.columns (q.clause? .groupBy)) := by
  unfold Progress.group
  cases hkeys : Grouping.keysOf ((q.clause? .groupBy).getD "") with
  | nil => exact h.pass (by simp [Stage.runs, hkeys])
  | cons key keys =>
    refine h.next (s := .groups) (by simp [Stage.runs, hkeys]) rfl ?_
    rw [Stage.rowsAfter, Query.grouped, hkeys, hrows]

theorem HasTold.sort (h : HasTold q kept done p) (hrows : p.rows = q.grouped kept) :
    HasTold q kept (done ++ [.order]) (p.sort (q.clause? .orderBy)) := by
  unfold Progress.sort
  cases hclause : q.clause? .orderBy with
  | none => exact h.pass (by rw [Stage.runs, hclause, Option.isSome_none])
  | some text =>
    refine h.next (s := .order) (by rw [Stage.runs, hclause, Option.isSome_some]) rfl ?_
    rw [Stage.rowsAfter, Query.sorted, hclause, hrows, Option.getD_some]

theorem HasTold.skip (h : HasTold q kept done p) (hrows : p.rows = q.sorted (q.grouped kept)) :
    HasTold q kept (done ++ [.offset]) (p.skip (q.clause? .offset)) := by
  unfold Progress.skip
  cases hclause : q.clause? .offset with
  | none => exact h.pass (by rw [Stage.runs, hclause, Option.isSome_none])
  | some text =>
    refine h.next (s := .offset) (by rw [Stage.runs, hclause, Option.isSome_some]) rfl ?_
    rw [Stage.rowsAfter, Query.skipped, hclause, hrows, Option.elim_some]

theorem HasTold.keep (h : HasTold q kept done p)
    (hrows : p.rows = q.skipped (q.sorted (q.grouped kept))) :
    HasTold q kept (done ++ [.limit]) (p.keep (q.clause? .limit)) := by
  unfold Progress.keep
  cases hclause : q.clause? .limit with
  | none => exact h.pass (by rw [Stage.runs, hclause, Option.isSome_none])
  | some text =>
    refine h.next (s := .limit) (by rw [Stage.runs, hclause, Option.isSome_some]) rfl ?_
    rw [Stage.rowsAfter, Query.arranged, Query.limited, hclause, hrows, Option.elim_some]

end Progress

namespace Query
variable {q : Query} {elapsed : Nat} {rows kept : List Row}

def beginEvent (rows : List Row) : Event :=
  ⟨.info, "QUERY_EXECUTE_BEGIN", [("rows_in", decimal rows.length)]⟩

/-- The time that a run takes shows in its events only. -/
theorem run_fst (q : Query) (elapsed : Nat) (rows : List Row) :
    (q.run elapsed rows).1 = q.execute rows := by
  rw [execute, run, run]
  split
  · rfl
  · dsimp only
    cases q.stages (Selection.ofClause (q.clause? .select)) rows <;> rfl

end Query

end TableQuery
