import TableQuery.Proofs.Condition.Display
import TableQuery.Proofs.Condition.Relation
import TableQuery.Proofs.Condition.Uniform
import TableQuery.Proofs.Query.Restriction
import TableQuery.Proofs.Value.Literal

/-! Queries that compare a column with an integer or a time. They keep the rows whose integers, or
whose times, are in the relation with it. -/
namespace TableQuery
open TableQuery.Text

theorem Value.not_isReserved_of_isMark {c : Char} (h : isMark c = true) : isReserved c = false := by
  cases hreserved : isReserved c with
  | false => rfl
  | true =>
    have hnone : ∀ d ∈ ['(', ')', '=', '<', '>', '!'], isMark d = false :=
      List.all_iff_forall_prop.1 rfl
    rw [hnone c (List.contains_iff_mem.1 hreserved)] at h
    cases h

/-- There are no letters among the marks. -/
theorem Value.not_mem_word_of_isMark {c : Char} (h : isMark c = true) (k : Connective) :
    c.toLower ∉ k.word := by
  have hnat : c.toNat ≤ 58 := by
    rw [isMark, Bool.or_eq_true] at h
    rcases h with hdigit | hmem
    · rw [Char.isDigit, Bool.and_eq_true, decide_eq_true_eq, decide_eq_true_eq] at hdigit
      have hle : c.toNat ≤ 57 := hdigit.2
      omega
    · have hall : ∀ d ∈ ['+', '-', ':', '.', ' ', '\'', '"'], d.toNat ≤ 58 :=
        List.all_iff_forall_prop.1 rfl
      exact hall c (List.contains_iff_mem.1 hmem)
  have hlower : c.toLower = c := by
    refine Connective.toLower_eq_self ?_
    omega
  have hnone : ∀ d ∈ k.word, isMark d = false := by
    refine List.all_iff_forall_prop.1 ?_
    cases k <;> rfl
  rw [hlower]
  intro hmem
  rw [hnone c hmem] at h
  cases h

theorem Condition.ofText_comparison {column literal : String} {v : Value}
    (hcolumn : ∀ c ∈ column.toList, isBlank c = false ∧ isReserved c = false)
    (hliteral : v.IsLiteral literal) (r : Relation) :
    ofText (column ++ " " ++ r.symbol ++ " " ++ literal) =
      .ok (some (leaf ⟨column, r, literal, none⟩)) := by
  refine Comparison.ofText_display (c := ⟨column, r, literal, none⟩) rfl hcolumn hliteral.trim_eq ?_
  intro c hc
  have hmark := hliteral.isMark c hc
  exact ⟨Value.not_isReserved_of_isMark hmark, Value.not_mem_word_of_isMark hmark⟩

theorem Query.trimmed_comparison {column literal : String} {v : Value} (hne : column ≠ "")
    (hcolumn : ∀ c ∈ column.toList, isBlank c = false ∧ isReserved c = false)
    (hliteral : v.IsLiteral literal) (r : Relation) :
    trimmed (column ++ " " ++ r.symbol ++ " " ++ literal) =
      column ++ " " ++ r.symbol ++ " " ++ literal := by
  have hcolumn_ne : column.toList ≠ [] := fun h => hne (String.toList_eq_nil_iff.1 h)
  rw [trimmed, trim_eq_self, String.ofList_toList]
  · intro c hc
    rw [String.toList_append, String.toList_append, String.toList_append, String.toList_append,
      List.append_assoc, List.append_assoc, List.append_assoc,
      List.head?_append_of_ne_nil _ hcolumn_ne] at hc
    exact (hcolumn c (List.mem_of_head? hc)).1
  · intro c hc
    rw [String.toList_append, List.getLast?_append_of_ne_nil _ hliteral.ne_nil,
      ← hliteral.trim_eq] at hc
    exact not_isBlank_of_getLast?_trim hc

namespace Query

/-- A comparison with an integer, or with a time in quotes or without, over values of its kind. -/
theorem execute_comparison {column literal : String} {v : Value} {rows : List Row}
    (hne : column ≠ "")
    (hcolumn : ∀ c ∈ column.toList, isBlank c = false ∧ isReserved c = false)
    (hliteral : v.IsLiteral literal) (hkind : ∀ row ∈ rows, (row.value column).kind = v.kind)
    (r : Relation) :
    (ofCondition (column ++ " " ++ r.symbol ++ " " ++ literal)).execute rows =
      .ok (rows.filter fun row => (row.value column).meets r v) := by
  have huniform : (Condition.leaf ⟨column, r, literal, none⟩).IsUniform rows := by
    intro name hname a ha b hb
    rw [List.mem_singleton.1 hname, hkind a ha, hkind b hb]
  rw [execute_ofCondition (trimmed_comparison hne hcolumn hliteral r)
    (Condition.ofText_comparison hcolumn hliteral r),
    Condition.select_fst_of_uncast (by simp [Condition.leaves]) huniform]
  refine congrArg Except.ok (List.filter_congr ?_)
  intro row hrow
  change r.holds (row.value column) (Value.ofLiteral (row.value column) literal) = _
  rw [hliteral.ofLiteral_eq (hkind row hrow)]
  cases hliteral with
  | int i => exact Relation.holds_int (hkind row hrow) r i
  | time t => exact Relation.holds_time (hkind row hrow) r t
  | quoted h t => exact Relation.holds_time (hkind row hrow) r t

/-- Half of a leap second is over, and midnight has not come yet. -/
theorem execute_comparison_before_midnight :
    let leap : Timestamp := ⟨1483228799, 1500000000, by decide, by decide, by decide, by decide⟩
    let midnight : Timestamp := ⟨1483228800, 0, by decide, by decide, by decide, by decide⟩
    let rows := [Row.ofList [("at", .time midnight)], Row.ofList [("at", .time leap)]]
    let literal := "'2016-12-31 23:59:60.500 +0000'"
    (∀ c ∈ "at".toList, isBlank c = false ∧ isReserved c = false) ∧
      (Value.time leap).IsLiteral literal ∧
      (∀ row ∈ rows, (row.value "at").kind = (Value.time leap).kind) ∧
      (ofCondition "at <= '2016-12-31 23:59:60.500 +0000'").execute rows =
        .ok [Row.ofList [("at", .time leap)]] := by
  intro leap midnight rows literal
  have hcolumn : ∀ c ∈ "at".toList, isBlank c = false ∧ isReserved c = false :=
    List.all_iff_forall_prop.1 rfl
  have hliteral : (Value.time leap).IsLiteral literal := by
    have hdisplay : (Value.time leap).display = "2016-12-31 23:59:60.500 +0000" := by
      decide +kernel
    have hquote : Timestamp.IsQuote '\'' := .inl rfl
    have hquoted := Value.IsLiteral.quoted hquote leap
    rwa [hdisplay] at hquoted
  have hkind : ∀ row ∈ rows, (row.value "at").kind = (Value.time leap).kind := by decide
  have hkept : (rows.filter fun row => (row.value "at").meets .le (.time leap)) =
      [Row.ofList [("at", .time leap)]] := by decide +kernel
  have hrun := execute_comparison (by decide) hcolumn hliteral hkind .le
  rw [hkept] at hrun
  exact ⟨hcolumn, hliteral, hkind, hrun⟩

end Query
end TableQuery
