import TableQuery.Proofs.Json.Number
import TableQuery.Proofs.Query.Document
import TableQuery.Proofs.Query.Stages

/-! Counts that a document gives as numbers. A number is its own text, and of that text only the
digits in front are read: they are the whole part, unless there is an exponent behind them. -/
namespace TableQuery.Query
open TableQuery.Json TableQuery.Text

/-- The count that a clause gives rows to skip, or rows to keep, is `k`. -/
def AppliesCount (q : Query) (k : Nat) : Clause → Prop
  | .offset => ∀ rows, q.execute rows = (q.restricted rows).map fun kept =>
      (q.limited ((q.sorted (q.grouped kept)).drop k)).map q.selection.project
  | .limit => ∀ rows, q.execute rows = (q.restricted rows).map fun kept =>
      ((q.skipped (q.sorted (q.grouped kept))).take k).map q.selection.project
  | _ => False

section
variable {q : Query} {c : Clause} {s : List Char}

theorem clause?_of_get? (h : q.get? c = some (String.ofList s)) (hs : trim s ≠ []) :
    q.clause? c = some (String.ofList (trim s)) := by
  have htrimmed : trimmed (String.ofList s) = String.ofList (trim s) := by
    rw [trimmed, String.toList_ofList]
  have hne : String.ofList (trim s) ≠ "" := by
    intro hempty
    have hnil := congrArg String.toList hempty
    rw [String.toList_ofList] at hnil
    exact hs hnil
  rw [clause?, h, Option.map_some, htrimmed, Option.filter_some, if_pos (decide_eq_true hne)]

theorem appliesCount_of_get? (hc : c.isCount = true) (h : q.get? c = some (String.ofList s))
    (hs : trim s ≠ []) : q.AppliesCount (Paging.count s) c := by
  have hclause := clause?_of_get? h hs
  cases c with
  | offset =>
    intro rows
    have hskipped : ∀ rows, q.skipped rows = rows.drop (Paging.count s) := by
      intro rows
      rw [skipped, hclause, Option.elim_some, String.toList_ofList, Paging.count_trim]
      rfl
    rw [execute_eq]
    simp only [arranged, hskipped]
  | limit =>
    intro rows
    have hlimited : ∀ rows, q.limited rows = rows.take (Paging.count s) := by
      intro rows
      rw [limited, hclause, Option.elim_some, String.toList_ofList, Paging.count_trim]
      rfl
    rw [execute_eq]
    simp only [arranged, hlimited]
  | select => cases hc
  | condition => cases hc
  | groupBy => cases hc
  | orderBy => cases hc

end

/-- What a count that is a number is read as. -/
theorem readClause_number {c : Clause} (hc : c.isCount = true) {n : Numeral}
    {text : Option String} (h : readClause c (.number n) = .ok text) :
    ∃ x, Number.ofNumeral? n = some x ∧ text = some (String.ofList x.text) := by
  unfold readClause at h
  rw [if_pos hc] at h
  obtain ⟨json, hjson, htext⟩ := bind_eq_ok_iff.1 h
  rw [orRefused_eq_ok_iff, ofTree?, Option.map_eq_some_iff] at hjson
  obtain ⟨x, hx, rfl⟩ := hjson
  cases htext
  exact ⟨x, hx, rfl⟩

/-- In an accepted document a number is applied as its whole part, up to the greatest count and
no less than zero, unless it is a positive float that is written with an exponent. Of such a
float, which is below 10^-5 or not below 10^16, a single digit is applied. -/
theorem appliesCount_of_number {refusal : String → Refusal} {text : String} {q : Query}
    {c : Clause} {n : Numeral} (h : ofJsonText refusal text = .ok q) (hc : c.isCount = true)
    (hn : Gives c (.number n) (Reading.ofText text.toList).tree) :
    ∃ x, Number.ofNumeral? n = some x ∧ q.AppliesCount (Paging.count x.text) c ∧
      (Paging.count x.text = min x.wholePart Paging.maxCount ↔ ¬ x.IsScientific) ∧
      (x.IsScientific → 1 ≤ Paging.count x.text ∧ Paging.count x.text ≤ 9) := by
  obtain ⟨x, hx, htext⟩ := readClause_number hc (readClause_of_gives h hn)
  have hshows := Number.shows_text (Number.isFinite_of_ofNumeral? hx)
  exact ⟨x, hx, appliesCount_of_get? hc htext hshows.trim_ne_nil, hshows.count⟩

/-- The limit 1e16 is written as 1e+16 and keeps a single row. -/
theorem limit_of_exponent_keeps_one :
    let text := "\x7b\"limit\":1e16\x7d"
    let n : Numeral := ⟨false, ['1'], [], some (false, "16".toList)⟩
    let x := Number.float (Binary64.ofBits 0x4341C37937E08000)
    let q : Query := { limit := some "1e+16" }
    let refusal : String → Refusal := fun _ => ⟨"", ""⟩
    ofJsonText refusal text = .ok q ∧ Clause.limit.isCount = true ∧
      Gives .limit (.number n) (Reading.ofText text.toList).tree ∧
      Number.ofNumeral? n = some x ∧ x.wholePart = 10000000000000000 ∧ q.AppliesCount 1 .limit := by
  intro text n x q refusal
  have hread : ofJsonText refusal text = .ok q := by decide +kernel
  have hcount : Clause.limit.isCount = true := rfl
  have htokens : Token.all text.toList =
      [.openObject, .string ("limit".toList.map .plain), .colon, .number n, .closeObject] := by
    decide +kernel
  have hgives : Gives .limit (.number n) (Reading.ofText text.toList).tree := by
    rw [Reading.ofText, htokens]
    exact .member List.mem_cons_self rfl rfl
  have hx : Number.ofNumeral? n = some x := by decide +kernel
  have hone : Paging.count x.text = 1 := by decide +kernel
  obtain ⟨y, hy, happlies, -⟩ := appliesCount_of_number hread hcount hgives
  rw [hx, Option.some.injEq] at hy
  rw [← hy, hone] at happlies
  exact ⟨hread, hcount, hgives, hx, by decide +kernel, happlies⟩

end TableQuery.Query
