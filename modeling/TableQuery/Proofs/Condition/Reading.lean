import TableQuery.Condition.Reading
import TableQuery.Proofs.Text.Blank

/-! One step of reading a condition, and the texts that a group is or is not found in. -/
namespace TableQuery
open TableQuery.Text

def Flat (s : List Char) : Prop := '(' ∉ s ∧ ')' ∉ s

instance (s : List Char) : Decidable (Flat s) :=
  inferInstanceAs (Decidable ('(' ∉ s ∧ ')' ∉ s))

theorem flat_nil : Flat [] := ⟨List.not_mem_nil, List.not_mem_nil⟩

theorem Flat.of_infix {s t : List Char} (ht : Flat t) (h : s <:+: t) : Flat s :=
  ⟨fun hs => ht.1 (h.subset hs), fun hs => ht.2 (h.subset hs)⟩

theorem Flat.append {s t : List Char} (hs : Flat s) (ht : Flat t) : Flat (s ++ t) := by
  rw [Flat, List.mem_append, List.mem_append, not_or, not_or]
  exact ⟨⟨hs.1, ht.1⟩, hs.2, ht.2⟩

structure Phrase where
  text : String
  flat : Flat text.toList
  nonblank : trim text.toList ≠ []

namespace Condition

theorem read_of_fault {s : List Char} {fault : ParenthesisFault} (h : shape s = .error fault) :
    read s = .error (.parentheses (String.ofList s) fault.reason) := by
  rw [read]
  split <;> simp_all

theorem read_of_comparison {s : List Char} (h : shape s = .ok .comparison) :
    read s = match Comparison.read? s with
      | some c => .ok (leaf c)
      | none => .error (.noOperator (String.ofList s)) := by
  rw [read]
  cases hc : Comparison.read? s <;> split <;> simp_all

theorem read_of_group {s inner : List Char} (h : shape s = .ok (.group inner)) :
    read s = read inner := by
  rw [read]
  split <;> simp_all

theorem read_of_joined {s left right : List Char} {k : Connective}
    (h : shape s = .ok (.joined k left right)) :
    read s = do return join k (← read left) (← read right) := by
  rw [read]
  split <;> simp_all

theorem not_isParenthesis {s : List Char} (hs : Flat s) :
    ∀ c ∈ s, (!isParenthesis c) = true := by
  intro c hc
  have hopen : c ≠ '(' := fun h => hs.1 (h ▸ hc)
  have hclose : c ≠ ')' := fun h => hs.2 (h ▸ hc)
  simp [isParenthesis, hopen, hclose]

theorem firstGroup_of_flat {s : List Char} (hs : Flat s) : firstGroup s = .ok none := by
  rw [firstGroup, List.dropWhile_eq_nil_iff.2 (not_isParenthesis hs)]

theorem firstGroup_append {before inner : List Char} (hbefore : Flat before) (hinner : Flat inner)
    (after : List Char) :
    firstGroup (before ++ '(' :: (inner ++ ')' :: after)) = .ok (some ⟨before, inner, after⟩) := by
  have hclose : ∀ c ∈ inner, (c != ')') = true := by
    intro c hc
    exact bne_iff_ne.2 fun h => hinner.2 (h ▸ hc)
  rw [firstGroup, List.dropWhile_append_of_pos (not_isParenthesis hbefore),
    List.dropWhile_cons_of_neg (by decide)]
  dsimp only
  rw [if_neg (by decide), List.dropWhile_append_of_pos hclose,
    List.dropWhile_cons_of_neg (by decide)]
  dsimp only
  rw [List.takeWhile_append_of_pos hclose, List.takeWhile_append_of_pos (not_isParenthesis hbefore),
    List.takeWhile_cons_of_neg (by decide), List.takeWhile_cons_of_neg (by decide)]
  simp only [List.append_nil]
  rw [if_neg hinner.1]

theorem shape_of_flat {s : List Char} (hs : Flat s) : shape s = .ok (flatShape s) := by
  rw [shape, firstGroup_of_flat hs]
  rfl

theorem shape_append {before inner : List Char} (hbefore : Flat before) (hinner : Flat inner)
    (after : List Char) :
    shape (before ++ '(' :: (inner ++ ')' :: after)) =
      .ok (Grouped.shape ⟨before, inner, after⟩) := by
  rw [shape, firstGroup_append hbefore hinner]
  rfl

theorem ofText_eq {text : String} (h : trim text.toList ≠ []) :
    ofText text = (read text.toList).map some := by
  rw [ofText, if_neg]
  rwa [List.isEmpty_iff]

theorem ofText_eq_ok_some_iff {text : String} (h : trim text.toList ≠ []) {c : Condition} :
    ofText text = .ok (some c) ↔ read text.toList = .ok c := by
  rw [ofText_eq h]
  cases read text.toList <;> simp [Except.map]

theorem ofText_eq_error_iff {text : String} (h : trim text.toList ≠ []) {e : QueryError} :
    ofText text = .error e ↔ read text.toList = .error e := by
  rw [ofText_eq h]
  cases read text.toList <;> simp [Except.map]

end Condition
end TableQuery
