import Mathlib.Data.List.TakeWhile
import TableQuery.Proofs.Text.Cut
import TableQuery.Selection

/-! Which column a select expression asks for. An aggregate opens where its name stands with a
parenthesis behind it, if another one closes on the same line. The leftmost place where it opens
counts, and there the last parenthesis that closes. -/
namespace TableQuery
open TableQuery.Text

namespace Text

def IsLetter (letter c : Char) : Prop := c.toLower = letter ∨ letter = 's' ∧ c = 'ſ'

end Text

def Closes (rest inner : List Char) : Prop := ∃ after, rest = inner ++ ')' :: after ∧ '\n' ∉ inner

namespace Aggregate

/-- The aggregate opens behind `before`: its name in any letter case, a parenthesis, and `rest`,
where another parenthesis closes on the same line. -/
structure IsOpening (a : Aggregate) (s before rest : List Char) : Prop where
  name : ∃ w, List.Forall₂ IsLetter a.name.toList w ∧ s = before ++ w ++ '(' :: rest
  closes : ∃ inner, Closes rest inner

variable {a : Aggregate} {s before place rest source : List Char}

theorem IsOpening.exists_place (h : a.IsOpening s before rest) : ∃ place, s = before ++ place := by
  obtain ⟨w, -, he⟩ := h.name
  exact ⟨_, he.trans (List.append_assoc _ _ _)⟩

end Aggregate

example : Column.ofExpression "max(x) ſUm((a)b) c\n)" =
    ⟨"(a)b", "max(x) ſUm((a)b) c\n)", some .sum⟩ := by decide

end TableQuery
