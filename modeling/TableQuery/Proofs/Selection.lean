import TableQuery.Proofs.Text.Blank
import TableQuery.Selection

/-! Which fields of a row a select clause shows, in terms of the text of the clause. -/
namespace TableQuery
open TableQuery.Text

/-- An aggregate is labelled by its whole expression, and a plain column by its name. -/
theorem Column.label_ofExpression {s : List Char} (h : trim s = s) :
    (ofExpression (String.ofList s)).label = String.ofList s := by
  rw [ofExpression]
  split
  · rfl
  · rfl
  · change trimmed (String.ofList s) = String.ofList s
    rw [trimmed, String.toList_ofList, h]

namespace Selection

def termsOf (clause : Option String) : List (List Char) :=
  ((terms (clause.getD "").toList).map trim).filter (!·.isEmpty)

/-- Whether a select clause shows the fields of that name: it has no terms, or one of them is a
star or the name itself. -/
def shows (clause : Option String) (name : String) : Bool :=
  (termsOf clause).isEmpty || (termsOf clause).contains ['*'] ||
    (termsOf clause).contains name.toList

theorem trim_of_mem_termsOf {clause : Option String} {t : List Char} (h : t ∈ termsOf clause) :
    trim t = t := by
  obtain ⟨s, -, rfl⟩ := List.mem_map.1 (List.mem_filter.1 h).1
  exact trim_trim s

theorem wildcard_ofClause (clause : Option String) :
    (ofClause clause).wildcard = (termsOf clause).contains ['*'] := by
  rw [Bool.eq_iff_iff]
  simp [ofClause, termsOf]

theorem columns_ofClause {clause : Option String} (h : ['*'] ∉ termsOf clause) :
    (ofClause clause).columns =
      (termsOf clause).map fun t => Column.ofExpression (String.ofList t) := by
  have hplain : (termsOf clause).filter (· != ['*']) = termsOf clause := by
    rw [List.filter_eq_self]
    intro t ht
    exact bne_iff_ne.2 fun he => h (he ▸ ht)
  rw [← hplain, termsOf, List.filter_filter, ofClause]
  simp only [Bool.and_comm]

/-- The columns of a selection bear the names of its terms. -/
theorem any_label_eq {clause : Option String} (h : ['*'] ∉ termsOf clause) (name : String) :
    (ofClause clause).columns.any (·.label == name) = (termsOf clause).contains name.toList := by
  rw [columns_ofClause h, List.any_map, Bool.eq_iff_iff, List.any_eq_true, List.contains_iff_mem]
  constructor
  · intro hex
    obtain ⟨t, ht, hlabel⟩ := hex
    rw [Function.comp, Column.label_ofExpression (trim_of_mem_termsOf ht), beq_iff_eq] at hlabel
    rwa [← hlabel, String.toList_ofList]
  · intro hmem
    refine ⟨_, hmem, ?_⟩
    rw [Function.comp, Column.label_ofExpression (trim_of_mem_termsOf hmem), String.ofList_toList,
      beq_self_eq_true]

theorem shows_eq (clause : Option String) (name : String) :
    shows clause name =
      ((ofClause clause).selectsAll || (ofClause clause).columns.any (·.label == name)) := by
  rw [shows, selectsAll, wildcard_ofClause]
  by_cases h : ['*'] ∈ termsOf clause
  · simp [h]
  · rw [any_label_eq h, columns_ofClause h, List.isEmpty_map,
      Bool.or_comm (termsOf clause).isEmpty]

/-- A row is reduced to the fields that are shown. -/
theorem fields_project (clause : Option String) (row : Row) :
    ((ofClause clause).project row).fields =
      row.fields.filter fun field => shows clause field.1 := by
  simp only [shows_eq, project]
  cases (ofClause clause).selectsAll with
  | true => exact (List.filter_eq_self.2 fun _ _ => rfl).symm
  | false => rfl

theorem mem_columns_ofClause {clause : Option String} {c : Column} :
    c ∈ (ofClause clause).columns ↔
      ∃ t ∈ termsOf clause, t ≠ ['*'] ∧ Column.ofExpression (String.ofList t) = c := by
  simp only [ofClause, termsOf, List.mem_map, List.mem_filter, Bool.and_eq_true, bne_iff_ne, ne_eq,
    and_assoc]

/-- The label of a column is the expression that it is made from. -/
theorem ofExpression_label {clause : Option String} {c : Column}
    (h : c ∈ (ofClause clause).columns) : Column.ofExpression c.label = c := by
  obtain ⟨t, ht, -, rfl⟩ := mem_columns_ofClause.1 h
  rw [Column.label_ofExpression (trim_of_mem_termsOf ht)]

def SameTerms (clause other : Option String) : Prop :=
  (∀ t ∈ termsOf clause, t ∈ termsOf other) ∧ ∀ t ∈ termsOf other, t ∈ termsOf clause

instance (clause other : Option String) : Decidable (SameTerms clause other) :=
  inferInstanceAs (Decidable (_ ∧ _))

namespace SameTerms
variable {clause other : Option String}

theorem mem_iff (h : SameTerms clause other) {t : List Char} :
    t ∈ termsOf clause ↔ t ∈ termsOf other :=
  ⟨h.1 t, h.2 t⟩

theorem mem_columns_iff (h : SameTerms clause other) (c : Column) :
    c ∈ (ofClause clause).columns ↔ c ∈ (ofClause other).columns := by
  simp only [mem_columns_ofClause, h.mem_iff]

theorem shows_eq (h : SameTerms clause other) (name : String) :
    shows clause name = shows other name := by
  have hempty : (termsOf clause).isEmpty = (termsOf other).isEmpty := by
    rw [Bool.eq_iff_iff, List.isEmpty_iff, List.isEmpty_iff, List.eq_nil_iff_forall_not_mem,
      List.eq_nil_iff_forall_not_mem]
    simp only [h.mem_iff]
  have hcontains (t : List Char) : (termsOf clause).contains t = (termsOf other).contains t := by
    rw [Bool.eq_iff_iff, List.contains_iff_mem, List.contains_iff_mem, h.mem_iff]
  rw [shows, shows, hempty, hcontains, hcontains]

end SameTerms
end Selection
end TableQuery
