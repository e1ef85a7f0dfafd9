import TableQuery.Proofs.Json.Reading
import TableQuery.Proofs.Query.Document

/-! A query is read back from its document, whatever the texts of its clauses are. -/
namespace TableQuery.Query
open TableQuery.Json

theorem eq_of_get?_eq {q q' : Query} (h : ∀ c, q.get? c = q'.get? c) : q = q' := by
  cases q
  cases q'
  rw [mk.injEq]
  exact ⟨h .select, h .condition, h .groupBy, h .orderBy, h .limit, h .offset⟩

theorem readClause_string (c : Clause) (s : String) :
    readClause c (.string (s.toList.map part)) = .ok (some s) := by
  have htext : String.ofList s.toList = s := String.ofList_toList
  rw [readClause]
  split
  · rw [ofTree?, decode?_map_part, Option.map_some, htext]
    rfl
  · rw [decode?_map_part]
    exact congrArg (fun text => Except.ok (some text)) htext

def members (q : Query) (clauses : List Clause) : List (String × Json) :=
  clauses.filterMap fun c => (q.get? c).map fun text => (c.name, .string text)

theorem isWhole_toJson (q : Query) : q.toJson.IsWhole := by
  refine .object ?_
  intro m hm
  obtain ⟨c, -, hm⟩ := List.mem_filterMap.1 hm
  obtain ⟨text, -, rfl⟩ := Option.map_eq_some_iff.1 hm
  exact .string text

section
variable {q acc : Query} {seen clauses : List Clause} {first : Clause}

theorem members_cons_of_none (h : q.get? first = none) :
    q.members (first :: clauses) = q.members clauses := by
  simp [members, h]

theorem members_cons_of_some {text : String} (h : q.get? first = some text) :
    q.members (first :: clauses) = (first.name, .string text) :: q.members clauses := by
  simp [members, h]

theorem set_eq_self (h : acc.get? first = none) : acc.set first none = acc := by
  refine eq_of_get?_eq ?_
  intro c
  by_cases hc : c = first
  · rw [hc, get?_set_self, h]
  · rw [get?_set_of_ne acc hc]

/-- Reading the members sets their clauses, and leaves the others as they are. -/
theorem exists_readMembers (hnodup : clauses.Nodup)
    (hnew : ∀ c ∈ clauses, c ∉ seen ∧ acc.get? c = none) :
    ∃ q', readMembers acc seen (memberTrees (q.members clauses)) = .ok q' ∧
      ∀ c, q'.get? c = if c ∈ clauses then q.get? c else acc.get? c := by
  induction clauses generalizing acc seen with
  | nil => exact ⟨acc, rfl, fun _ => rfl⟩
  | cons first clauses ih =>
    obtain ⟨hfirst, hnodup⟩ := List.nodup_cons.1 hnodup
    obtain ⟨⟨hseen, hnone⟩, hrest⟩ := List.forall_mem_cons.1 hnew
    have hget : ∀ c, (if c ∈ clauses then q.get? c else (acc.set first (q.get? first)).get? c) =
        if c ∈ first :: clauses then q.get? c else acc.get? c := by
      intro c
      by_cases hc : c = first
      · rw [hc, if_neg hfirst, get?_set_self, if_pos List.mem_cons_self]
      · rw [get?_set_of_ne acc hc]
        simp [List.mem_cons, hc]
    -- A clause without a text has no member: it is not set, which is as good as set to none.
    cases htext : q.get? first with
    | none =>
      obtain ⟨q', hread, hq'⟩ := ih hnodup hrest
      rw [htext, set_eq_self hnone] at hget
      rw [members_cons_of_none htext]
      exact ⟨q', hread, fun c => (hq' c).trans (hget c)⟩
    | some text =>
      have hnext : ∀ c ∈ clauses, c ∉ first :: seen ∧
          (acc.set first (some text)).get? c = none := by
        intro c hc
        have hne : c ≠ first := fun h => hfirst (h ▸ hc)
        rw [get?_set_of_ne acc hne, List.mem_cons, not_or]
        exact ⟨⟨hne, (hrest c hc).1⟩, (hrest c hc).2⟩
      obtain ⟨q', hread, hq'⟩ := ih hnodup hnext
      rw [htext] at hget
      have hname : Clause.ofName? (String.ofList first.name.toList) = some first := by
        rw [String.ofList_toList, Clause.ofName?_name]
      rw [members_cons_of_some htext, memberTrees, Json.tree]
      refine ⟨q', ?_, fun c => (hq' c).trans (hget c)⟩
      exact readMembers_cons_eq_ok_iff.2 ⟨_, decode?_map_part _,
        .inr ⟨first, some text, hname, hseen, readClause_string first text, hread⟩⟩

end

/-- The document of a query is read as that query. -/
theorem ofJsonText_toJson (refusal : String → Refusal) (q : Query) :
    ofJsonText refusal (String.ofList q.toJson.text) = .ok q := by
  have hnew : ∀ c ∈ Clause.all, c ∉ ([] : List Clause) ∧ empty.get? c = none := by decide
  obtain ⟨q', hread, hget⟩ := exists_readMembers (q := q) (by decide : Clause.all.Nodup) hnew
  have hq : q' = q := by
    refine eq_of_get?_eq ?_
    intro c
    have hc : c ∈ Clause.all := by
      cases c <;> decide
    rw [hget, if_pos hc]
  have htree : q.toJson.tree = .object (memberTrees (q.members Clause.all)) := by
    rw [toJson, Json.tree]
    rfl
  rw [hq] at hread
  refine mapError_eq_ok_iff.2 ?_
  rw [readDocument, String.toList_ofList, Reading.ofText_text q.isWhole_toJson, htree]
  exact bind_eq_ok_iff.2 ⟨q, hread, rfl⟩

end TableQuery.Query
