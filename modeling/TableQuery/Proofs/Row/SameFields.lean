import TableQuery.Proofs.Row.Agreement
import TableQuery.Proofs.Row.OrderedMap

/-! Rows that have the same fields, perhaps in different orders. No column tells them apart. -/
namespace TableQuery

namespace Fields
variable {α : Type} {fields others : List (String × α)}

def IsFunctional (fields : List (String × α)) : Prop :=
  ∀ name a b, (name, a) ∈ fields → (name, b) ∈ fields → a = b

theorem lookup_eq_some_iff (h : IsFunctional fields) {name : String} {a : α} :
    fields.lookup name = some a ↔ (name, a) ∈ fields := by
  have hfound : ∀ {b : α}, fields.lookup name = some b → (name, b) ∈ fields := by
    intro b hb
    obtain ⟨before, after, he, -⟩ := List.lookup_eq_some_iff.1 hb
    rw [he]
    exact List.mem_append_right before List.mem_cons_self
  refine ⟨hfound, ?_⟩
  intro hmem
  cases hlookup : fields.lookup name with
  | none =>
    have hne := List.lookup_eq_none_iff.1 hlookup _ hmem
    simp at hne
  | some b => rw [h name a b hmem (hfound hlookup)]

theorem IsFunctional.of_mem_iff (h : IsFunctional fields)
    (hmem : ∀ field, field ∈ fields ↔ field ∈ others) : IsFunctional others :=
  fun name a b ha hb => h name a b ((hmem _).2 ha) ((hmem _).2 hb)

theorem lookup_eq_of_mem_iff (h : IsFunctional fields)
    (hmem : ∀ field, field ∈ fields ↔ field ∈ others) (name : String) :
    fields.lookup name = others.lookup name := by
  refine Option.ext fun a => ?_
  rw [lookup_eq_some_iff h, lookup_eq_some_iff (h.of_mem_iff hmem), hmem]

end Fields

namespace Row
variable {a b : Row}

def SameFields (a b : Row) : Prop := ∀ field, field ∈ a.fields ↔ field ∈ b.fields

theorem sameFields_iff : SameFields a b ↔ ∀ column, a.get? column = b.get? column := by
  constructor
  · intro h column
    refine Option.ext fun v => ?_
    rw [get?_eq_some_iff, get?_eq_some_iff, h]
  · intro h field
    rw [← get?_eq_some_iff, ← get?_eq_some_iff, h]

theorem SameFields.refl (row : Row) : SameFields row row := fun _ => Iff.rfl

theorem SameFields.agreeOn (h : SameFields a b) (U : Set String) : AgreeOn U a b := by
  intro column _
  rw [value, value, sameFields_iff.1 h]

/-- Inserted fields of which no two overwrite each other may come in any order. -/
theorem sameFields_insertAll {fields others : List (String × Value)}
    (h : Fields.IsFunctional fields) (hmem : ∀ field, field ∈ fields ↔ field ∈ others)
    (row : Row) : SameFields (row.insertAll fields) (row.insertAll others) := by
  have hfields : Fields.IsFunctional fields.reverse :=
    h.of_mem_iff fun _ => List.mem_reverse.symm
  have hreverse : ∀ field, field ∈ fields.reverse ↔ field ∈ others.reverse := by
    intro field
    rw [List.mem_reverse, List.mem_reverse, hmem]
  rw [sameFields_iff]
  intro column
  rw [get?_insertAll, get?_insertAll, Fields.lookup_eq_of_mem_iff hfields hreverse]

end Row
end TableQuery
