import Mathlib.Data.List.Infix
import TableQuery.Condition.Reading
import TableQuery.Proofs.Text.Cut

/-! What a text without connectives is read as, and when it is not read at all. -/
namespace TableQuery
open TableQuery.Text

def hasOperator (s : List Char) : Bool := s.any fun c => c == '=' || c == '<' || c == '>'

theorem hasOperator_append (s t : List Char) :
    hasOperator (s ++ t) = (hasOperator s || hasOperator t) := List.any_append

namespace Relation

def Within (r : Relation) (s : List Char) : Prop := r.symbol.toList <:+: s

theorem occursIn_iff {r : Relation} {s : List Char} : r.occursIn s = true ↔ r.Within s := by
  rw [occursIn, Option.isSome_iff_ne_none, ne_eq, cutAt?_eq_none_iff, not_not, Within]

/-- The last relation of the scan order that is within the text. -/
theorem scan?_eq_some_iff {r : Relation} {s : List Char} :
    scan? s = some r ↔ r.Within s ∧
      ∃ before after, scanOrder = before ++ r :: after ∧ ∀ r' ∈ after, ¬ r'.Within s := by
  rw [scan?, List.getLast?_filter, List.find?_eq_some_iff_append, occursIn_iff]
  refine and_congr_right fun _ => ?_
  constructor
  · intro hex
    obtain ⟨after, before, hs, hafter⟩ := hex
    refine ⟨before.reverse, after.reverse, ?_, ?_⟩
    · rw [← List.reverse_reverse scanOrder, hs]
      simp
    · intro r' hr' hwithin
      have h := hafter r' (List.mem_reverse.1 hr')
      rw [occursIn_iff.2 hwithin] at h
      cases h
  · intro hex
    obtain ⟨before, after, hs, hafter⟩ := hex
    refine ⟨after.reverse, before.reverse, by simp [hs], ?_⟩
    intro r' hr'
    cases h : r'.occursIn s with
    | false => rfl
    | true => exact absurd (occursIn_iff.1 h) (hafter r' (List.mem_reverse.1 hr'))

/-- Every symbol has one of three characters in it, and each of these is a symbol. -/
theorem hasOperator_iff {s : List Char} :
    hasOperator s = true ↔ ∃ r ∈ scanOrder, r.Within s := by
  constructor
  · intro h
    obtain ⟨c, hc, hop⟩ := List.any_eq_true.1 h
    have hwithin : [c] <:+: s := (List.singleton_infix_iff _ _).2 hc
    simp only [Bool.or_eq_true, beq_iff_eq] at hop
    rcases hop with (rfl | rfl) | rfl
    · exact ⟨eq, by decide, hwithin⟩
    · exact ⟨lt, by decide, hwithin⟩
    · exact ⟨gt, by decide, hwithin⟩
  · intro hex
    obtain ⟨r, -, hwithin⟩ := hex
    have hsymbol : hasOperator r.symbol.toList = true := by
      cases r <;> decide
    obtain ⟨c, hc, hop⟩ := List.any_eq_true.1 hsymbol
    exact List.any_eq_true.2 ⟨c, hwithin.subset hc, hop⟩

theorem scan?_eq_none_iff {s : List Char} : scan? s = none ↔ hasOperator s = false := by
  rw [scan?, List.getLast?_eq_none_iff, List.filter_eq_nil_iff, ← Bool.not_eq_true,
    hasOperator_iff]
  simp only [occursIn_iff, not_exists, not_and]

/-- Every symbol ends in a character that makes a text have an operator. -/
theorem exists_symbol_eq (r : Relation) :
    ∃ front c, r.symbol.toList = front ++ [c] ∧ hasOperator [c] = true := by
  cases r with
  | eq => exact ⟨[], '=', rfl, rfl⟩
  | ne => exact ⟨['!'], '=', rfl, rfl⟩
  | lt => exact ⟨[], '<', rfl, rfl⟩
  | le => exact ⟨['<'], '=', rfl, rfl⟩
  | gt => exact ⟨[], '>', rfl, rfl⟩
  | ge => exact ⟨['>'], '=', rfl, rfl⟩

theorem within_append_iff {r : Relation} {s t : List Char} (ht : hasOperator t = false) :
    r.Within (s ++ t) ↔ r.Within s := by
  constructor
  · intro h
    obtain ⟨before, after, he⟩ := h
    obtain ⟨front, c, hsymbol, hc⟩ := r.exists_symbol_eq
    have hmem : c ∉ t := by
      intro hmem
      rw [hasOperator, List.any_eq_false] at ht
      rw [hasOperator, List.any_cons, List.any_nil, Bool.or_false] at hc
      exact ht c hmem hc
    have hsides : s ++ t = (before ++ front) ++ c :: after := by
      rw [← he, hsymbol]
      simp
    cases List.append_eq_append_iff.1 hsides with
    | inl hlong =>
      obtain ⟨more, -, rfl⟩ := hlong
      exact absurd (by simp) hmem
    | inr hshort =>
      obtain ⟨more, rfl, hmore⟩ := hshort
      cases more with
      | nil =>
        rw [List.nil_append] at hmore
        exact absurd (hmore ▸ List.mem_cons_self) hmem
      | cons m more =>
        obtain ⟨rfl, -⟩ := List.cons_eq_cons.1 hmore
        refine ⟨before, more, ?_⟩
        rw [hsymbol]
        simp
  · intro h
    exact h.trans (List.prefix_append s t).isInfix

theorem scan?_append {t : List Char} (ht : hasOperator t = false) (s : List Char) :
    scan? (s ++ t) = scan? s := by
  rw [scan?, scan?]
  congr 2
  funext r
  rw [Bool.eq_iff_iff, occursIn_iff, occursIn_iff, within_append_iff ht]

end Relation

namespace Comparison

structure IsReading (piece : List Char) (c : Comparison) : Prop where
  within : c.relation.Within piece
  last : ∃ before after, Relation.scanOrder = before ++ c.relation :: after ∧
    ∀ r ∈ after, ¬ r.Within piece
  sides : ∃ left right, piece = left ++ c.relation.symbol.toList ++ right ∧
    FirstMatch (c.relation.symbol.toList = ·) left c.relation.symbol.toList right ∧
    c.column = String.ofList (trim left) ∧ c.literal = String.ofList (trim right)
  cast : c.cast = none

theorem read?_eq_some_iff {s : List Char} {c : Comparison} :
    read? s = some c ↔ IsReading s c := by
  constructor
  · intro h
    obtain ⟨r, hr, h⟩ := Option.bind_eq_some_iff.1 h
    obtain ⟨⟨left, right⟩, hcut, h⟩ := Option.bind_eq_some_iff.1 h
    cases h
    obtain ⟨hwithin, hlast⟩ := Relation.scan?_eq_some_iff.1 hr
    obtain ⟨hs, hfirst⟩ := cutAt?_eq_some_iff.1 hcut
    exact ⟨hwithin, hlast, ⟨left, right, hs, hfirst, rfl, rfl⟩, rfl⟩
  · intro hex
    obtain ⟨hwithin, hlast, ⟨left, right, hs, hfirst, hcolumn, hliteral⟩, hcast⟩ := hex
    have hr : Relation.scan? s = some c.relation :=
      Relation.scan?_eq_some_iff.2 ⟨hwithin, hlast⟩
    have hcut : cutAt? c.relation.symbol.toList s = some (left, right) :=
      cutAt?_eq_some_iff.2 ⟨hs, hfirst⟩
    have hc : ⟨String.ofList (trim left), c.relation, String.ofList (trim right), none⟩ = c := by
      rw [← hcolumn, ← hliteral, ← hcast]
    rw [← hc]
    simp only [read?, hr, hcut, Option.bind_eq_bind, Option.bind_some, Option.pure_def]

theorem exists_read? {s : List Char} (h : hasOperator s = true) : ∃ c, read? s = some c := by
  cases hr : Relation.scan? s with
  | none => simp [Relation.scan?_eq_none_iff, h] at hr
  | some r =>
    obtain ⟨hwithin, -⟩ := Relation.scan?_eq_some_iff.1 hr
    cases hcut : cutAt? r.symbol.toList s with
    | none => exact absurd hwithin (cutAt?_eq_none_iff.1 hcut)
    | some sides => exact ⟨_, by simp [read?, hr, hcut]; rfl⟩

theorem read?_eq_none {s : List Char} (h : hasOperator s = false) : read? s = none := by
  rw [read?, Relation.scan?_eq_none_iff.2 h]
  rfl

end Comparison
end TableQuery
