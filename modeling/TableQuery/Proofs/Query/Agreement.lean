import TableQuery.Engine.Basic
import TableQuery.Proofs.Condition.Casting
import TableQuery.Proofs.Grouping.Partition
import TableQuery.Proofs.Row.Agreement

/-! A query sees the columns that its clauses name and nothing else. Rows that agree on these
columns go through every stage side by side: a stage does not tell them apart, and the rows that
it gives agree again. -/
namespace TableQuery

def Condition.columnsOf (clause : Option String) : List String :=
  match clause.map Condition.ofText with
  | some (.ok (some c)) => c.columns
  | _ => []

def SortTerm.columnsOf (clause : Option String) : List String :=
  (SortTerm.ofClause (clause.getD "")).map (·.column)

def Column.sourcesOf (columns : List Column) : List String :=
  (columns.filter (·.aggregate.isSome)).map (·.source)

def Query.columnsRead (q : Query) : List String :=
  Condition.columnsOf (q.clause? .condition) ++ Grouping.keysOf ((q.clause? .groupBy).getD "") ++
    SortTerm.columnsOf (q.clause? .orderBy) ++
    Column.sourcesOf (Selection.ofClause (q.clause? .select)).columns

variable {U : Set String} {rows others : List Row}

namespace Condition

theorem test_congr {c : Condition} {a b : Row} (hc : ∀ column ∈ c.columns, column ∈ U)
    (h : Row.AgreeOn U a b) : c.test a = c.test b := by
  induction c with
  | leaf c =>
    have hvalue : a.value c.column = b.value c.column := h _ (hc _ List.mem_cons_self)
    rw [test, test, Comparison.test, Comparison.test, hvalue]
  | join k left right ihl ihr =>
    rw [columns, leaves, List.map_append, List.forall_mem_append] at hc
    rw [test, test, ihl hc.1, ihr hc.2]

/-- The same places are kept, and the literals are cast alike. -/
theorem select_agree (h : List.Forall₂ (Row.AgreeOn U) rows others) {c : Condition}
    (hc : ∀ column ∈ c.columns, column ∈ U) :
    List.Forall₂ (Row.AgreeOn U) (c.select rows).1 (c.select others).1 ∧
      (c.select rows).2 = (c.select others).2 := by
  induction h generalizing c with
  | nil => exact ⟨List.Forall₂.nil, rfl⟩
  | @cons a b rows others hrow _ ih =>
    have htest : c.test a = c.test b := test_congr hc hrow
    have hnext : ∀ column ∈ (c.test b).2.columns, column ∈ U := by
      rw [columns_test]
      exact hc
    obtain ⟨hkept, hlast⟩ := ih hnext
    rw [select_cons, select_cons, htest]
    refine ⟨?_, hlast⟩
    cases (c.test b).1 with
    | true => exact List.Forall₂.cons hrow hkept
    | false => exact hkept

end Condition

theorem Aggregate.evaluate_congr {column : String}
    (h : rows.map (·.value column) = others.map (·.value column)) (a : Aggregate) :
    a.evaluate rows column = a.evaluate others column := by
  cases a with
  | sum =>
    have hnumbers := congrArg (List.filterMap Value.toNumber?) h
    rw [List.filterMap_map, List.filterMap_map] at hnumbers
    exact congrArg (fun xs => Value.float (xs.foldl Binary64.add (Binary64.zero true))) hnumbers
  | maximum => rw [evaluate, greatest, greatest, h]

namespace Grouping

theorem totals_congr (h : List.Forall₂ (Row.AgreeOn U) rows others) {columns : List Column}
    (hcolumns : ∀ source ∈ Column.sourcesOf columns, source ∈ U) :
    totals columns rows = totals columns others := by
  refine List.filterMap_congr fun column hmem => ?_
  cases haggregate : column.aggregate with
  | none => rfl
  | some a =>
    have hkept : column ∈ columns.filter (·.aggregate.isSome) :=
      List.mem_filter.2 ⟨hmem, by rw [haggregate]; rfl⟩
    have hsource : column.source ∈ U := hcolumns _ (List.mem_map_of_mem hkept)
    have hvalue := Aggregate.evaluate_congr (Row.map_value_eq h hsource) a
    simp only [Option.map_some, hvalue]

theorem collapse_agree (h : List.Forall₂ (Row.AgreeOn U) rows others) {columns : List Column}
    (hcolumns : ∀ source ∈ Column.sourcesOf columns, source ∈ U) :
    List.Forall₂ (Row.AgreeOn U) (collapse columns rows).toList
      (collapse columns others).toList := by
  have htotals := totals_congr h hcolumns
  cases h with
  | nil => exact List.Forall₂.nil
  | cons hrow hrest =>
    simp only [collapse, List.head?_cons, Option.map_some, withAggregates_eq, htotals]
    exact List.Forall₂.cons (hrow.insertAll _) List.Forall₂.nil

/-- The bucket of each value agrees with the bucket of that value. -/
theorem buckets_agree (h : List.Forall₂ (Row.AgreeOn U) rows others) {key : String}
    (hkey : key ∈ U) :
    List.Forall₂ (List.Forall₂ (Row.AgreeOn U)) (buckets (sameKey key) rows)
      (buckets (sameKey key) others) := by
  have hkeys : rows.map (keyOf key) = others.map (keyOf key) := by
    have hvalues := congrArg (List.map Value.groupKey) (Row.map_value_eq h hkey)
    rw [List.map_map, List.map_map] at hvalues
    exact hvalues
  have hrows : buckets (sameKey key) rows = _ := buckets_eq (keyOf key) rows
  have hothers : buckets (sameKey key) others = _ := buckets_eq (keyOf key) others
  rw [hrows, hothers, hkeys, List.forall₂_map_left_iff, List.forall₂_map_right_iff,
    List.forall₂_same]
  intro v _
  refine List.rel_filter ?_ h
  intro a b hab
  have hsame : keyOf key a = keyOf key b := congrArg Value.groupKey (hab key hkey)
  simp only [hsame]

theorem group_agree (h : List.Forall₂ (Row.AgreeOn U) rows others) {columns : List Column}
    (hcolumns : ∀ source ∈ Column.sourcesOf columns, source ∈ U) {keys : List String}
    (hkeys : ∀ key ∈ keys, key ∈ U) :
    List.Forall₂ (Row.AgreeOn U) (group columns keys rows) (group columns keys others) := by
  induction keys generalizing rows others with
  | nil => exact collapse_agree h hcolumns
  | cons key keys ih =>
    obtain ⟨hkey, hrest⟩ := List.forall_mem_cons.1 hkeys
    rw [group, group]
    exact List.rel_flatMap (buckets_agree h hkey) fun _ _ hbucket => ih hbucket hrest

end Grouping

namespace SortTerm

theorem compareAll_congr {ts : List SortTerm} (hts : ∀ t ∈ ts, t.column ∈ U) {a b a' b' : Row}
    (ha : Row.AgreeOn U a a') (hb : Row.AgreeOn U b b') :
    compareAll ts a b = compareAll ts a' b' := by
  induction ts with
  | nil => rfl
  | cons t ts ih =>
    obtain ⟨ht, hrest⟩ := List.forall_mem_cons.1 hts
    have hcompare : t.compare a b = t.compare a' b' := by
      rw [SortTerm.compare, SortTerm.compare, ha _ ht, hb _ ht]
    rw [compareAll, compareAll, hcompare, ih hrest]

/-- Orders that see no difference between related elements bring them to the same places. The
pairs of related elements are sorted, and each side of them is one of the two lists. -/
theorem forall₂_mergeSort {α β : Type} {R : α → β → Prop} {le : α → α → Bool}
    {le' : β → β → Bool} (hle : ∀ {a a' b b'}, R a a' → R b b' → le a b = le' a' b')
    {l : List α} {l' : List β} (h : List.Forall₂ R l l') :
    List.Forall₂ R (l.mergeSort le) (l'.mergeSort le') := by
  let pairLE : α × β → α × β → Bool := fun p q => le p.1 q.1
  have hrelated : ∀ p ∈ l.zip l', R p.1 p.2 := fun p hp => List.forall₂_zip h hp
  have hleft : ((l.zip l').mergeSort pairLE).map Prod.fst = l.mergeSort le := by
    have hmap : ∀ p ∈ l.zip l', ∀ q ∈ l.zip l', pairLE p q = le p.1 q.1 := fun _ _ _ _ => rfl
    rw [List.map_mergeSort hmap, List.map_fst_zip (Nat.le_of_eq h.length_eq)]
  have hright : ((l.zip l').mergeSort pairLE).map Prod.snd = l'.mergeSort le' := by
    have hmap : ∀ p ∈ l.zip l', ∀ q ∈ l.zip l', pairLE p q = le' p.2 q.2 :=
      fun p hp q hq => hle (hrelated p hp) (hrelated q hq)
    rw [List.map_mergeSort hmap, List.map_snd_zip (Nat.le_of_eq h.length_eq.symm)]
  rw [← hleft, ← hright, List.forall₂_map_left_iff, List.forall₂_map_right_iff,
    List.forall₂_same]
  intro p hp
  exact hrelated p ((List.mergeSort_perm _ _).mem_iff.1 hp)

theorem sort_agree (h : List.Forall₂ (Row.AgreeOn U) rows others) {ts : List SortTerm}
    (hts : ∀ t ∈ ts, t.column ∈ U) :
    List.Forall₂ (Row.AgreeOn U) (sort ts rows) (sort ts others) :=
  forall₂_mergeSort (fun ha hb => by rw [compareAll_congr hts ha hb]) h

end SortTerm

theorem Selection.project_agree (h : List.Forall₂ (Row.AgreeOn U) rows others) (s : Selection) :
    List.Forall₂ (Row.AgreeOn U) (rows.map s.project) (others.map s.project) := by
  rw [List.forall₂_map_left_iff, List.forall₂_map_right_iff]
  refine h.imp fun a b hab => ?_
  rw [project, project]
  split
  · exact hab
  · exact hab.filter fun name => s.columns.any (·.label == name)

inductive Alike {α β : Type} (R : α → β → Prop) :
    Except QueryError α → Except QueryError β → Prop
  | error (e : QueryError) : Alike R (.error e) (.error e)
  | ok {a : α} {b : β} (h : R a b) : Alike R (.ok a) (.ok b)

theorem Alike.map {α β γ δ : Type} {R : α → β → Prop} {S : γ → δ → Prop} {f : α → γ} {g : β → δ}
    {x : Except QueryError α} {y : Except QueryError β} (h : Alike R x y)
    (hfg : ∀ {a b}, R a b → S (f a) (g b)) : Alike S (x.map f) (y.map g) := by
  cases h with
  | error e => exact Alike.error e
  | ok hab => exact Alike.ok (hfg hab)

structure Progress.AgreeOn (U : Set String) (p p' : Progress) : Prop where
  rows : List.Forall₂ (Row.AgreeOn U) p.rows p'.rows
  steps : p.steps = p'.steps

namespace Progress.AgreeOn
variable {p p' : Progress}

theorem next (h : p.AgreeOn U p') (stage : String) (details : List (String × String))
    (hrows : List.Forall₂ (Row.AgreeOn U) rows others) :
    (p.next stage details rows).AgreeOn U (p'.next stage details others) where
  rows := hrows
  steps := by rw [Progress.next, Progress.next, h.steps, hrows.length_eq]

theorem restrict (h : p.AgreeOn U p') {clause : Option String}
    (hclause : ∀ column ∈ Condition.columnsOf clause, column ∈ U) :
    Alike (Progress.AgreeOn U) (p.restrict clause) (p'.restrict clause) := by
  cases clause with
  | none => exact Alike.ok h
  | some text =>
    rw [Condition.columnsOf, Option.map_some] at hclause
    rw [Progress.restrict, Progress.restrict]
    match Condition.ofText text, hclause with
    | .error e, _ => exact Alike.error e
    | .ok none, _ => exact Alike.ok h
    | .ok (some c), hclause =>
      obtain ⟨hrows, hcast⟩ := Condition.select_agree h.rows hclause
      refine Alike.ok ?_
      simp only [hcast]
      exact h.next _ _ hrows

theorem group (h : p.AgreeOn U p') {columns : List Column}
    (hcolumns : ∀ source ∈ Column.sourcesOf columns, source ∈ U) {clause : Option String}
    (hclause : ∀ key ∈ Grouping.keysOf (clause.getD ""), key ∈ U) :
    (p.group columns clause).AgreeOn U (p'.group columns clause) := by
  rw [Progress.group, Progress.group]
  match Grouping.keysOf (clause.getD ""), hclause with
  | [], _ => exact h
  | key :: keys, hclause => exact h.next _ _ (Grouping.group_agree h.rows hcolumns hclause)

theorem sort (h : p.AgreeOn U p') {clause : Option String}
    (hclause : ∀ column ∈ SortTerm.columnsOf clause, column ∈ U) :
    (p.sort clause).AgreeOn U (p'.sort clause) := by
  cases clause with
  | none => exact h
  | some text =>
    exact h.next _ _ (SortTerm.sort_agree h.rows (List.forall_mem_map.1 hclause))

theorem skip (h : p.AgreeOn U p') (clause : Option String) :
    (p.skip clause).AgreeOn U (p'.skip clause) := by
  cases clause with
  | none => exact h
  | some text => exact h.next _ _ (List.forall₂_drop _ h.rows)

theorem keep (h : p.AgreeOn U p') (clause : Option String) :
    (p.keep clause).AgreeOn U (p'.keep clause) := by
  cases clause with
  | none => exact h
  | some text => exact h.next _ _ (List.forall₂_take _ h.rows)

end Progress.AgreeOn

namespace Query
variable {q : Query}

theorem stages_alike (hU : ∀ column ∈ q.columnsRead, column ∈ U)
    (h : List.Forall₂ (Row.AgreeOn U) rows others) :
    Alike (Progress.AgreeOn U) (q.stages (Selection.ofClause (q.clause? .select)) rows)
      (q.stages (Selection.ofClause (q.clause? .select)) others) := by
  simp only [columnsRead, List.forall_mem_append] at hU
  obtain ⟨⟨⟨hcondition, hkeys⟩, horder⟩, hsources⟩ := hU
  have hbegin : Progress.AgreeOn U ⟨rows, []⟩ ⟨others, []⟩ := ⟨h, rfl⟩
  refine (hbegin.restrict hcondition).map fun hp => ?_
  exact (((hp.group hsources hkeys).sort horder).skip _).keep _

/-- Over rows that agree where the query looks, it fails alike or gives as many rows, which
agree again. No event tells the rows apart either. -/
theorem execute_alike_of_agreeOn (hU : ∀ column ∈ q.columnsRead, column ∈ U)
    (h : List.Forall₂ (Row.AgreeOn U) rows others) :
    Alike (List.Forall₂ (Row.AgreeOn U)) (q.execute rows) (q.execute others) ∧
      ∀ elapsed, (q.run elapsed rows).2 = (q.run elapsed others).2 := by
  have hstages := stages_alike hU h
  have hlength := h.length_eq
  cases h with
  | nil => exact ⟨Alike.ok List.Forall₂.nil, fun _ => rfl⟩
  | @cons a b rows others _ _ =>
    simp only [execute, run, List.isEmpty_cons, Bool.false_eq_true, if_false, hlength]
    generalize q.stages _ (a :: rows) = x at hstages
    generalize q.stages _ (b :: others) = y at hstages
    cases hstages with
    | error e => exact ⟨Alike.error e, fun _ => rfl⟩
    | ok hp =>
      have hresult := Selection.project_agree hp.rows (Selection.ofClause (q.clause? .select))
      refine ⟨Alike.ok hresult, fun elapsed => ?_⟩
      simp only [hp.steps, hresult.length_eq]

/-- A null and a missing team are in one group, and notes do not count. -/
theorem execute_alike_null_and_missing :
    let q : Query :=
      { select := some "max(pts)"
        condition := some "pts > 1"
        groupBy := some "team"
        orderBy := some "max(pts) desc" }
    let U : Set String := {column | column ∈ ["pts", "team", "max(pts)"]}
    let rows := [Row.ofList [("team", .null), ("pts", .int 2)],
      Row.ofList [("team", .text "red"), ("pts", .int 4), ("note", .text "late")],
      Row.ofList [("pts", .int 3)]]
    let others := [Row.ofList [("pts", .int 2)],
      Row.ofList [("pts", .int 4), ("team", .text "red")],
      Row.ofList [("note", .text "new"), ("pts", .int 3), ("team", .null)]]
    (∀ column ∈ q.columnsRead, column ∈ U) ∧ List.Forall₂ (Row.AgreeOn U) rows others ∧
      Alike (List.Forall₂ (Row.AgreeOn U)) (q.execute rows) (q.execute others) := by
  intro q U rows others
  have hU : ∀ column ∈ q.columnsRead, column ∈ U := by
    change ∀ column ∈ q.columnsRead, column ∈ ["pts", "team", "max(pts)"]
    decide +kernel
  have hagree : List.Forall₂ (Row.AgreeOn U) rows others := by decide
  exact ⟨hU, hagree, (execute_alike_of_agreeOn hU hagree).1⟩

end Query
end TableQuery
