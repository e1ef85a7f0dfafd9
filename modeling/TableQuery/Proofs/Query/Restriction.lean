import TableQuery.Proofs.Condition.Groups
import TableQuery.Proofs.Condition.Joining
import TableQuery.Proofs.Query.Stages

/-! Queries that are a condition and nothing else. A group after another is a query after
another, on columns of mixed kinds too. -/
namespace TableQuery
open TableQuery.Text

theorem Text.trimmed_parenthesized (s : String) : trimmed ("(" ++ s ++ ")") = "(" ++ s ++ ")" := by
  rw [trimmed, trim_eq_self, String.ofList_toList]
  · intro c hc
    simp only [String.toList_append, List.append_assoc] at hc
    cases hc
    rfl
  · intro c hc
    rw [String.toList_append, List.getLast?_append_of_ne_nil _ (by decide)] at hc
    cases hc
    rfl

theorem Condition.ofText_groups {a b : Phrase} {c d : Condition}
    (ha : ofText a.text = .ok (some c)) (hb : ofText b.text = .ok (some d)) :
    ofText ("(" ++ a.text ++ ") and (" ++ b.text ++ ")") =
      .ok (some (.join .and c d)) := by
  have harranged : IsArranged ("(" ++ a.text ++ ") " ++ "and" ++ " " ++ ("(" ++ b.text ++ ")"))
      (.link a .and (.last b)) := .link (k := .and) (w := "and") a rfl (.group b)
  have htext : "(" ++ a.text ++ ") " ++ "and" ++ " " ++ ("(" ++ b.text ++ ")") =
      "(" ++ a.text ++ ") and (" ++ b.text ++ ")" := by
    rw [← String.toList_inj]
    simp
  rw [htext] at harranged
  rw [ofText_eq_ok_some_iff a.nonblank] at ha
  rw [ofText_eq_ok_some_iff b.nonblank] at hb
  rw [ofText_eq_ok_some_iff (nonblank_of_isArranged harranged), read_of_isArranged harranged,
    Chain.nestM, Chain.nestM, ha, hb]
  rfl

namespace Query

def ofCondition (text : String) : Query := { condition := some text }

theorem execute_ofCondition {text : String} {c : Condition} (htrimmed : trimmed text = text)
    (h : Condition.ofText text = .ok (some c)) (rows : List Row) :
    (ofCondition text).execute rows = .ok (c.select rows).1 := by
  have hne : text ≠ "" := by
    rintro rfl
    cases h
  have hclause : (ofCondition text).clause? .condition = some text := by
    simp [clause?, ofCondition, get?, htrimmed, hne]
  have hrestricted : (ofCondition text).restricted rows = .ok (c.select rows).1 := by
    rw [restricted, hclause]
    cases rows with
    | nil => rfl
    | cons row rows => simp [h, Except.map]
  have harranged : ∀ kept, (ofCondition text).arranged kept = kept := SortTerm.sort_nil
  have hproject : (ofCondition text).selection.project = id := rfl
  rw [execute_eq, hrestricted, Except.map, hproject, List.map_id, harranged]

/-- Joined conditions are run one after the other, and so are two groups with an AND between
them: a query of both is the query of the second over the result of the first. -/
theorem joins_run_in_turn :
    (∀ (left right : Condition) (rows : List Row), Condition.RunsInTurn left right rows) ∧
      ∀ a b : Phrase, trimmed a.text = a.text → trimmed b.text = b.text →
        (∃ c, Condition.ofText a.text = .ok (some c)) →
        (∃ d, Condition.ofText b.text = .ok (some d)) → ∀ rows : List Row, ∃ kept out,
          (ofCondition a.text).execute rows = .ok kept ∧
          (ofCondition b.text).execute kept = .ok out ∧
          (ofCondition ("(" ++ a.text ++ ") and (" ++ b.text ++ ")")).execute rows = .ok out := by
  refine ⟨Condition.runsInTurn, ?_⟩
  intro a b ha hb hc hd rows
  obtain ⟨c, hc⟩ := hc
  obtain ⟨d, hd⟩ := hd
  have htrimmed : trimmed ("(" ++ a.text ++ ") and (" ++ b.text ++ ")") =
      "(" ++ a.text ++ ") and (" ++ b.text ++ ")" := by
    have h := trimmed_parenthesized (a.text ++ ") and (" ++ b.text)
    simpa only [String.append_assoc] using h
  refine ⟨_, _, execute_ofCondition ha hc rows, execute_ofCondition hb hd _, ?_⟩
  rw [execute_ofCondition htrimmed (Condition.ofText_groups hc hd),
    (Condition.runsInTurn c d rows).and]

/-- The first row that meets the first group has a text in `b`, so that seven is taken for a text
in the rows after it. -/
theorem joins_run_in_turn_text_before_integer :
    let c : Condition := .leaf ⟨"a", .eq, "2", none⟩
    let d : Condition := .leaf ⟨"b", .eq, "7", none⟩
    let rows := [Row.ofList [("a", .int 1), ("b", .int 7)],
      Row.ofList [("a", .int 2), ("b", .text "x")], Row.ofList [("a", .text "2"), ("b", .int 7)],
      Row.ofList [("a", .int 2), ("b", .text "7")]]
    Condition.ofText "a = 2" = .ok (some c) ∧ Condition.ofText "b = 7" = .ok (some d) ∧
      ∃ kept out, (ofCondition "a = 2").execute rows = .ok kept ∧
        (ofCondition "b = 7").execute kept = .ok out ∧
        (ofCondition "(a = 2) and (b = 7)").execute rows = .ok out := by
  intro c d rows
  have hc : Condition.ofText "a = 2" = .ok (some c) := by decide +kernel
  have hd : Condition.ofText "b = 7" = .ok (some d) := by decide +kernel
  exact ⟨hc, hd, joins_run_in_turn.2 ⟨"a = 2", by decide, by decide⟩
    ⟨"b = 7", by decide, by decide⟩ (by decide) (by decide) ⟨c, hc⟩ ⟨d, hd⟩ rows⟩

end Query
end TableQuery
