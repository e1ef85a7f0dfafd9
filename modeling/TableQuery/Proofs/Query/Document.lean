import TableQuery.Query.Document

/-! What a query document gives for a clause, and that it is what the query holds. -/
namespace TableQuery

namespace Clause

theorem ofName?_name (c : Clause) : ofName? c.name = some c := by
  cases c <;> decide

end Clause

namespace Query
open TableQuery.Json

inductive Gives (c : Clause) (value : Tree) : Tree → Prop
  | member {members : List (List StringPart × Tree)} {parts : List StringPart} {key : List Char}
      (hmember : (parts, value) ∈ members) (hkey : decode? parts = some key)
      (hname : String.ofList key = c.name) : Gives c value (.object members)
  | item {items : List Tree} (h : (c, value) ∈ Clause.all.zip items) : Gives c value (.array items)

theorem get?_set_self (q : Query) (c : Clause) (text : Option String) :
    (q.set c text).get? c = text := by
  cases c <;> rfl

theorem get?_set_of_ne (q : Query) {c c' : Clause} (h : c' ≠ c) (text : Option String) :
    (q.set c text).get? c' = q.get? c' := by
  cases c <;> cases c' <;> first | rfl | exact absurd rfl h

theorem orRefused_eq_ok_iff {α : Type} {o : Option α} {a : α} :
    orRefused o = .ok a ↔ o = some a := by
  cases o <;> simp [orRefused]

theorem bind_eq_ok_iff {ε α β : Type} {x : Except ε α} {f : α → Except ε β} {b : β} :
    (x >>= f) = .ok b ↔ ∃ a, x = .ok a ∧ f a = .ok b := by
  cases x <;> simp [bind, Except.bind]

theorem mapError_eq_ok_iff {ε ε' α : Type} {x : Except ε α} {f : ε → ε'} {a : α} :
    x.mapError f = .ok a ↔ x = .ok a := by
  cases x with
  | error e =>
    change Except.error (f e) = .ok a ↔ _
    simp
  | ok b =>
    change Except.ok b = .ok a ↔ _
    simp

section
variable {c : Clause} {q q' : Query} {seen : List Clause}

/-- What a member does to the query: a clause is set if it has not been before, and a member
of another name is passed over. -/
theorem readMembers_cons_eq_ok_iff {parts : List StringPart} {value : Tree}
    {members : List (List StringPart × Tree)} :
    readMembers q seen ((parts, value) :: members) = .ok q' ↔
      ∃ key, decode? parts = some key ∧
        (Clause.ofName? (String.ofList key) = none ∧ readMembers q seen members = .ok q' ∨
        ∃ c text, Clause.ofName? (String.ofList key) = some c ∧ c ∉ seen ∧
          readClause c value = .ok text ∧
          readMembers (q.set c text) (c :: seen) members = .ok q') := by
  rw [readMembers, bind_eq_ok_iff]
  simp only [orRefused_eq_ok_iff]
  refine exists_congr fun key => and_congr_right fun _ => ?_
  cases Clause.ofName? (String.ofList key) with
  | none => simp
  | some c =>
    by_cases hseen : c ∈ seen
    · simp [hseen, throw, throwThe, MonadExceptOf.throw]
    · simp [hseen, bind_eq_ok_iff]

theorem get?_readMembers_of_mem {members : List (List StringPart × Tree)}
    (h : readMembers q seen members = .ok q') (hc : c ∈ seen) : q'.get? c = q.get? c := by
  induction members generalizing q seen with
  | nil =>
    cases h
    rfl
  | cons member members ih =>
    obtain ⟨key, -, hrest⟩ := readMembers_cons_eq_ok_iff.1 h
    cases hrest with
    | inl hrest => exact ih hrest.2 hc
    | inr hrest =>
      obtain ⟨c', text, -, hnew, -, hrest⟩ := hrest
      have hne : c ≠ c' := fun heq => hnew (heq ▸ hc)
      rw [ih hrest (List.mem_cons_of_mem c' hc), get?_set_of_ne q hne]

theorem get?_readMembers {members : List (List StringPart × Tree)} {parts : List StringPart}
    {key : List Char} {value : Tree} (h : readMembers q seen members = .ok q')
    (hmember : (parts, value) ∈ members) (hkey : decode? parts = some key)
    (hname : String.ofList key = c.name) : readClause c value = .ok (q'.get? c) := by
  induction members generalizing q seen with
  | nil => cases hmember
  | cons member members ih =>
    obtain ⟨first, hfirst, hrest⟩ := readMembers_cons_eq_ok_iff.1 h
    cases List.mem_cons.1 hmember with
    | inl heq =>
      subst heq
      rw [hkey, Option.some.injEq] at hfirst
      rw [← hfirst, hname, Clause.ofName?_name] at hrest
      obtain ⟨hnone, -⟩ | ⟨c', text, hc', -, hread, hrest⟩ := hrest
      · cases hnone
      · cases hc'
        rw [get?_readMembers_of_mem hrest List.mem_cons_self, get?_set_self, hread]
    | inr hmember =>
      obtain ⟨-, hrest⟩ | ⟨c', text, -, -, -, hrest⟩ := hrest
      · exact ih hrest hmember
      · exact ih hrest hmember

theorem readItems_cons_eq_ok_iff {first : Clause} {clauses : List Clause} {value : Tree}
    {items : List Tree} :
    readItems q (first :: clauses) (value :: items) = .ok q' ↔
      ∃ text, readClause first value = .ok text ∧
        readItems (q.set first text) clauses items = .ok q' := by
  rw [readItems, bind_eq_ok_iff]

theorem get?_readItems_of_not_mem {clauses : List Clause} {items : List Tree}
    (h : readItems q clauses items = .ok q') (hc : c ∉ clauses) : q'.get? c = q.get? c := by
  induction clauses generalizing q items with
  | nil =>
    cases items with
    | nil =>
      cases h
      rfl
    | cons value items => cases h
  | cons first clauses ih =>
    cases items with
    | nil =>
      cases h
      rfl
    | cons value items =>
      obtain ⟨hne, hrest⟩ := not_or.1 (mt List.mem_cons.2 hc)
      obtain ⟨text, -, hitems⟩ := readItems_cons_eq_ok_iff.1 h
      rw [ih hitems hrest, get?_set_of_ne q hne]

theorem get?_readItems {clauses : List Clause} {items : List Tree} {value : Tree}
    (h : readItems q clauses items = .ok q') (hnodup : clauses.Nodup)
    (hc : (c, value) ∈ clauses.zip items) : readClause c value = .ok (q'.get? c) := by
  induction clauses generalizing q items with
  | nil => cases hc
  | cons first clauses ih =>
    cases items with
    | nil => cases hc
    | cons item items =>
      obtain ⟨hfirst, hnodup⟩ := List.nodup_cons.1 hnodup
      obtain ⟨text, hread, hitems⟩ := readItems_cons_eq_ok_iff.1 h
      cases List.mem_cons.1 hc with
      | inl heq =>
        cases heq
        rw [get?_readItems_of_not_mem hitems hfirst, get?_set_self, hread]
      | inr hc => exact ih hitems hnodup hc

end

/-- An accepted document gives a clause one value, and the query holds it as it is read. -/
theorem readClause_of_gives {refusal : String → Refusal} {text : String} {q : Query} {c : Clause}
    {value : Tree} (h : ofJsonText refusal text = .ok q)
    (hvalue : Gives c value (Reading.ofText text.toList).tree) :
    readClause c value = .ok (q.get? c) := by
  have hdocument : readDocument text.toList = .ok q := mapError_eq_ok_iff.1 h
  obtain ⟨q', htree, hcomplete⟩ := bind_eq_ok_iff.1 hdocument
  split at hcomplete
  · cases hcomplete
    generalize (Reading.ofText text.toList).tree = tree at htree hvalue
    cases hvalue with
    | member hmember hkey hname => exact get?_readMembers htree hmember hkey hname
    | item hitem => exact get?_readItems htree (by decide) hitem
  · cases hcomplete

end Query
end TableQuery
