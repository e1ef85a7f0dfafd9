import TableQuery.Proofs.Condition.Unread
import TableQuery.Proofs.Query.Counts
import TableQuery.Proofs.Query.Journal

/-! When a query fails: over rows if its condition cannot be read, and over a document besides if
no rows can be read from it. No other clause can fail, whatever its text. -/
namespace TableQuery
open TableQuery.Text

def Json.isObject : Json → Bool
  | object _ => true
  | _ => false

inductive Json.IsCalled : Json → String → Prop
  | null : IsCalled .null "null"
  | bool (b : Bool) : IsCalled (.bool b) "boolean"
  | number (n : Number) : IsCalled (.number n) "number"
  | string (s : String) : IsCalled (.string s) "string"
  | array (items : List Json) : IsCalled (.array items) "array"
  | object (members : List (String × Json)) : IsCalled (.object members) "object"

theorem Json.isCalled_iff {j : Json} {word : String} : j.IsCalled word ↔ j.kind = word := by
  constructor
  · intro h
    cases h <;> rfl
  · rintro rfl
    cases j with
    | null => exact .null
    | bool b => exact .bool b
    | number n => exact .number n
    | string s => exact .string s
    | array items => exact .array items
    | object members => exact .object members

inductive Json.HasNoRows : Json → String → Prop
  | document {d : Json} {word : String} (hnull : d ≠ .null) (harray : ∀ items, d ≠ .array items)
      (hword : d.IsCalled word) : d.HasNoRows ("expected an array of objects, found " ++ word)
  | item {items : List Json} {item : Json} {word : String}
      (hfirst : items.find? (!·.isObject) = some item) (hword : item.IsCalled word) :
      (Json.array items).HasNoRows ("expected an object, found " ++ word)

def Row.ofMembers (members : List (String × Json)) : Row :=
  ofList (members.map fun m => (m.1, Value.ofJson m.2))

inductive Json.HasRows : Json → List Row → Prop
  | null : HasRows .null []
  | objects (members : List (List (String × Json))) :
      (Json.array (members.map .object)).HasRows (members.map Row.ofMembers)

theorem Json.exists_hasNoRows_iff {d : Json} :
    (∃ detail, d.HasNoRows detail) ↔
      d ≠ .null ∧ ∀ items, d = .array items → ∃ item ∈ items, item.isObject = false := by
  constructor
  · rintro ⟨detail, h⟩
    cases h with
    | document hnull harray _ => exact ⟨hnull, fun items hitems => absurd hitems (harray items)⟩
    | @item items item _ hfirst _ =>
      have hitem := List.find?_some hfirst
      rw [Bool.not_eq_true'] at hitem
      refine ⟨nofun, fun items' hitems => ?_⟩
      cases hitems
      exact ⟨item, List.mem_of_find?_eq_some hfirst, hitem⟩
  · rintro ⟨hnull, harray⟩
    by_cases hitems : ∃ items, d = .array items
    · obtain ⟨items, rfl⟩ := hitems
      obtain ⟨item, hmem, hitem⟩ := harray items rfl
      cases hfirst : items.find? (!·.isObject) with
      | none => exact absurd (List.find?_eq_none.1 hfirst item hmem) (by rw [hitem]; decide)
      | some first => exact ⟨_, .item hfirst (isCalled_iff.2 rfl)⟩
    · exact ⟨_, .document hnull (not_exists.1 hitems) (isCalled_iff.2 rfl)⟩

theorem QueryError.isSyntax_iff {err : QueryError} :
    err.isSyntax = true ↔ ∃ text, err = .condition text := by
  cases err with
  | condition text => exact iff_of_true rfl ⟨text, rfl⟩
  | _ => exact iff_of_false nofun nofun

namespace Row

theorem ofJson_eq_error_iff {j : Json} {err : QueryError} :
    ofJson j = .error err ↔
      j.isObject = false ∧ err = .rows ("expected an object, found " ++ j.kind) := by
  cases j with
  | object members => exact iff_of_false nofun nofun
  | _ => exact ⟨fun h => ⟨rfl, (Except.error.inj h).symm⟩, fun h => congrArg Except.error h.2.symm⟩

/-- The items are read in their order, and reading stops at the first fault. -/
theorem mapM_ofJson_eq_error_iff {items : List Json} {err : QueryError} :
    items.mapM ofJson = .error err ↔
      ∃ item, items.find? (!·.isObject) = some item ∧
        err = .rows ("expected an object, found " ++ item.kind) := by
  induction items with
  | nil => exact iff_of_false nofun nofun
  | cons j items ih =>
    rw [List.mapM_cons]
    cases hj : ofJson j with
    | error e =>
      obtain ⟨hobject, rfl⟩ := ofJson_eq_error_iff.1 hj
      rw [List.find?_cons_of_pos (by rw [hobject]; rfl)]
      exact ⟨fun h => ⟨j, rfl, (Except.error.inj h).symm⟩, fun ⟨_, hfirst, herr⟩ =>
        (Option.some.inj hfirst) ▸ congrArg Except.error herr.symm⟩
    | ok row =>
      have hobject : j.isObject = true := by
        by_contra hother
        rw [ofJson_eq_error_iff.2 ⟨Bool.not_eq_true _ ▸ hother, rfl⟩] at hj
        cases hj
      rw [List.find?_cons_of_neg (by rw [hobject]; decide), ← ih]
      cases items.mapM ofJson with
      | error e => exact Iff.rfl
      | ok rows => exact iff_of_false nofun nofun

theorem mapM_ofJson_eq_ok_iff {items : List Json} {rows : List Row} :
    items.mapM ofJson = .ok rows ↔
      ∃ members : List (List (String × Json)),
        items = members.map .object ∧ rows = members.map ofMembers := by
  induction items generalizing rows with
  | nil =>
    constructor
    · intro h
      cases h
      exact ⟨[], rfl, rfl⟩
    · rintro ⟨members, hitems, rfl⟩
      rw [List.map_eq_nil_iff.1 hitems.symm]
      rfl
  | cons j items ih =>
    rw [List.mapM_cons, Query.bind_eq_ok_iff]
    simp only [Query.bind_eq_ok_iff]
    constructor
    · rintro ⟨row, hrow, rest, hrest, h⟩
      obtain ⟨members, rfl, rfl⟩ := ih.1 hrest
      cases h
      cases j with
      | object ms =>
        cases hrow
        exact ⟨ms :: members, rfl, rfl⟩
      | _ => cases hrow
    · rintro ⟨members, hitems, rfl⟩
      cases members with
      | nil => cases hitems
      | cons ms members =>
        obtain ⟨rfl, rfl⟩ := List.cons.inj hitems
        exact ⟨ofMembers ms, rfl, _, ih.2 ⟨members, rfl, rfl⟩, rfl⟩

theorem listOfJson_eq_ok_iff {d : Json} {rows : List Row} :
    listOfJson d = .ok rows ↔ d.HasRows rows := by
  constructor
  · intro h
    cases d with
    | null =>
      cases h
      exact .null
    | array items =>
      obtain ⟨members, rfl, rfl⟩ := mapM_ofJson_eq_ok_iff.1 h
      exact .objects members
    | _ => cases h
  · intro h
    cases h with
    | null => rfl
    | objects members => exact mapM_ofJson_eq_ok_iff.2 ⟨members, rfl, rfl⟩

theorem listOfJson_eq_error_iff {d : Json} {err : QueryError} :
    listOfJson d = .error err ↔ ∃ detail, d.HasNoRows detail ∧ err = .rows detail := by
  constructor
  · intro h
    cases d with
    | null => cases h
    | array items =>
      obtain ⟨item, hfirst, herr⟩ := mapM_ofJson_eq_error_iff.1 h
      exact ⟨_, .item hfirst (Json.isCalled_iff.2 rfl), herr⟩
    | _ => exact ⟨_, .document nofun nofun (Json.isCalled_iff.2 rfl), (Except.error.inj h).symm⟩
  · rintro ⟨detail, hd, rfl⟩
    cases hd with
    | document hnull harray hword =>
      rw [listOfJson, Json.isCalled_iff.1 hword]
      · exact hnull
      · exact harray
    | item hfirst hword =>
      rw [← Json.isCalled_iff.1 hword]
      exact mapM_ofJson_eq_error_iff.2 ⟨_, hfirst, rfl⟩

theorem exists_hasRows_iff {d : Json} :
    (∃ rows, d.HasRows rows) ↔ ∀ detail, ¬ d.HasNoRows detail := by
  simp only [← listOfJson_eq_ok_iff]
  constructor
  · rintro ⟨rows, hrows⟩ detail hd
    rw [listOfJson_eq_error_iff.2 ⟨detail, hd, rfl⟩] at hrows
    cases hrows
  · intro hnone
    cases hread : listOfJson d with
    | ok rows => exact ⟨rows, rfl⟩
    | error err =>
      obtain ⟨detail, hd, -⟩ := listOfJson_eq_error_iff.1 hread
      exact absurd hd (hnone detail)

end Row

namespace Query
variable {q : Query} {rows : List Row} {err : QueryError}

/-- There is a condition, which gives the error when it is read without the blanks around it. -/
def IsRejectedFor (q : Query) (err : QueryError) : Prop :=
  ∃ text, q.condition = some text ∧ trim text.toList ≠ [] ∧
    Condition.ofText (trimmed text) = .error err

theorem clause?_eq_some_iff {c : Clause} {text : String} :
    q.clause? c = some text ↔
      ∃ raw, q.get? c = some raw ∧ trim raw.toList ≠ [] ∧ text = trimmed raw := by
  constructor
  · intro h
    have hne := trim_ne_nil_of_clause? h
    obtain ⟨raw, hraw, rfl⟩ := Option.map_eq_some_iff.1 (Option.filter_eq_some_iff.1 h).1
    rw [trimmed, String.toList_ofList, trim_trim] at hne
    exact ⟨raw, hraw, hne, rfl⟩
  · rintro ⟨raw, hraw, hne, rfl⟩
    exact clause?_of_get? (hraw.trans (congrArg some String.ofList_toList.symm)) hne

theorem isRejectedFor_iff :
    q.IsRejectedFor err ↔
      ∃ text, q.clause? .condition = some text ∧ Condition.ofText text = .error err := by
  constructor
  · rintro ⟨raw, hraw, hne, herr⟩
    exact ⟨_, clause?_eq_some_iff.2 ⟨raw, hraw, hne, rfl⟩, herr⟩
  · rintro ⟨text, htext, herr⟩
    obtain ⟨raw, hraw, hne, rfl⟩ := clause?_eq_some_iff.1 htext
    exact ⟨raw, hraw, hne, herr⟩

theorem restricted_eq_error_iff (hrows : rows ≠ []) :
    q.restricted rows = .error err ↔ q.IsRejectedFor err := by
  rw [isRejectedFor_iff, restricted, if_neg (by rwa [List.isEmpty_iff])]
  cases q.clause? .condition with
  | none => simp
  | some text => cases hread : Condition.ofText text <;> simp [Except.map, hread]

theorem execute_eq_error_iff (hrows : rows ≠ []) :
    q.execute rows = .error err ↔ q.IsRejectedFor err := by
  rw [← restricted_eq_error_iff hrows, execute_eq]
  cases q.restricted rows <;> simp [Except.map]

theorem IsRejectedFor.exists_eq (h : q.IsRejectedFor err) : ∃ text, err = .condition text := by
  obtain ⟨text, -, hne, herr⟩ := h
  rw [← QueryError.isSyntax_iff]
  refine Condition.isSyntax_of_read_eq_error ((Condition.ofText_eq_error_iff ?_).1 herr)
  rwa [trimmed, String.toList_ofList, trim_trim]

theorem isRejectedFor_set {c : Clause} (hc : c ≠ .condition) (text : Option String) :
    (q.set c text).IsRejectedFor err ↔ q.IsRejectedFor err := by
  cases c with
  | condition => exact absurd rfl hc
  | _ => exact Iff.rfl

end Query

namespace Engine

structure FailsOnCondition (e : Engine) (q : Query) (elapsed : Nat) : Prop where
  empty : e.run q elapsed [] = ⟨.ok [], [], []⟩
  error_iff : ∀ rows ≠ [], ∀ err,
    (e.run q elapsed rows).result = .error err ↔ q.IsRejectedFor err
  condition : ∀ err, q.IsRejectedFor err → ∃ text, err = .condition text
  ok : ∀ rows, (∀ err, ¬ q.IsRejectedFor err) → ∃ out, (e.run q elapsed rows).result = .ok out
  other : ∀ c ≠ Clause.condition, ∀ text err,
    (q.set c text).IsRejectedFor err ↔ q.IsRejectedFor err

structure FailsOnDocument (e : Engine) (q : Query) (elapsed : Nat) : Prop where
  rejected : ∀ (d : Json) detail, d.HasNoRows detail →
    e.runJson q elapsed d = ⟨.error (.rows detail), [], []⟩
  rejected_iff : ∀ d : Json, (∃ detail, d.HasNoRows detail) ↔
    d ≠ .null ∧ ∀ items, d = .array items → ∃ item ∈ items, item.isObject = false
  read : ∀ (d : Json) rows, d.HasRows rows → e.runJson q elapsed d = e.run q elapsed rows
  read_iff : ∀ d : Json, (∃ rows, d.HasRows rows) ↔ ∀ detail, ¬ d.HasNoRows detail
  error_iff : ∀ (d : Json) err, (e.runJson q elapsed d).result = .error err ↔
    (∃ detail, d.HasNoRows detail ∧ err = .rows detail) ∨
      ∃ rows, d.HasRows rows ∧ rows ≠ [] ∧ q.IsRejectedFor err

variable (e : Engine) (q : Query) (elapsed : Nat)

theorem result_run (rows : List Row) : (e.run q elapsed rows).result = q.execute rows :=
  Query.run_fst q elapsed rows

theorem run_nil : e.run q elapsed [] = ⟨.ok [], [], []⟩ := rfl

theorem result_run_eq_error_iff {rows : List Row} {err : QueryError} :
    (e.run q elapsed rows).result = .error err ↔ rows ≠ [] ∧ q.IsRejectedFor err := by
  rw [result_run]
  by_cases hrows : rows = []
  · subst hrows
    exact iff_of_false nofun fun h => h.1 rfl
  · rw [Query.execute_eq_error_iff hrows, and_iff_right hrows]

theorem failsOnCondition : e.FailsOnCondition q elapsed where
  empty := e.run_nil q elapsed
  error_iff rows hrows err := by rw [result_run_eq_error_iff, and_iff_right hrows]
  condition _ := Query.IsRejectedFor.exists_eq
  ok rows hnone := by
    cases hresult : (e.run q elapsed rows).result with
    | ok out => exact ⟨out, rfl⟩
    | error err =>
      obtain ⟨-, hrejected⟩ := (e.result_run_eq_error_iff q elapsed).1 hresult
      exact absurd hrejected (hnone err)
  other _ hc text _ := Query.isRejectedFor_set hc text

theorem runJson_of_error {d : Json} {err : QueryError} (h : Row.listOfJson d = .error err) :
    e.runJson q elapsed d = ⟨.error err, [], []⟩ := by
  rw [runJson, Query.runJson, h]
  rfl

theorem runJson_of_ok {d : Json} {rows : List Row} (h : Row.listOfJson d = .ok rows) :
    e.runJson q elapsed d = e.run q elapsed rows := by
  rw [runJson, Query.runJson, h]
  rfl

theorem result_runJson_eq_error_iff {d : Json} {err : QueryError} :
    (e.runJson q elapsed d).result = .error err ↔
      Row.listOfJson d = .error err ∨
        ∃ rows, Row.listOfJson d = .ok rows ∧ rows ≠ [] ∧ q.IsRejectedFor err := by
  cases hread : Row.listOfJson d with
  | error err' =>
    rw [e.runJson_of_error q elapsed hread]
    exact (or_iff_left nofun).symm
  | ok rows =>
    rw [e.runJson_of_ok q elapsed hread, result_run_eq_error_iff]
    constructor
    · exact fun h => .inr ⟨rows, rfl, h⟩
    · rintro (h | ⟨_, hsame, h⟩)
      · cases h
      · cases hsame
        exact h

theorem failsOnDocument : e.FailsOnDocument q elapsed where
  rejected d detail h :=
    e.runJson_of_error q elapsed (Row.listOfJson_eq_error_iff.2 ⟨detail, h, rfl⟩)
  rejected_iff _ := Json.exists_hasNoRows_iff
  read _ _ h := e.runJson_of_ok q elapsed (Row.listOfJson_eq_ok_iff.2 h)
  read_iff _ := Row.exists_hasRows_iff
  error_iff d err := by
    rw [result_runJson_eq_error_iff, Row.listOfJson_eq_error_iff]
    simp only [Row.listOfJson_eq_ok_iff]

/-- A query over rows fails only by its condition, and a query over a document only by that and by
the document. -/
theorem fails_only_on_condition_or_document :
    e.FailsOnCondition q elapsed ∧ e.FailsOnDocument q elapsed :=
  ⟨e.failsOnCondition q elapsed, e.failsOnDocument q elapsed⟩

end Engine
end TableQuery
