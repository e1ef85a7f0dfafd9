import TableQuery.Proofs.Condition.Pieces
import TableQuery.Proofs.Condition.Unread

/-! A text with a connective dangling at its end. The connective has no blank behind it, so that it
is a word of the last literal, unless the blank in front of it completes another connective. -/
namespace TableQuery
open TableQuery.Text

namespace Connective
variable {k : Connective} {s w left right : List Char}

/-- Separators share no more than a blank. -/
theorem IsSeparator.length_le {before after sep sep' : List Char} (h : k.IsSeparator sep)
    (h' : k.IsSeparator sep') (he : left ++ sep ++ right = before ++ sep' ++ after)
    (hlt : before.length < left.length) : (before ++ sep').length ≤ (left ++ sep).length := by
  obtain ⟨b, u, b', hb, -, -, rfl⟩ := h
  obtain ⟨c, v, c', -, hv, -, rfl⟩ := h'
  rw [List.append_assoc, List.append_assoc before] at he
  have hprefix : before <+: left :=
    List.prefix_of_prefix_length_le ⟨_, he.symm⟩ (List.prefix_append _ _) (Nat.le_of_lt hlt)
  obtain ⟨between, rfl⟩ := hprefix
  cases between with
  | nil =>
    rw [List.append_nil] at hlt
    exact absurd hlt (Nat.lt_irrefl _)
  | cons d between =>
    have htail : between ++ b :: (u ++ b' :: right) = v ++ c' :: after := by
      simp only [List.append_assoc, List.cons_append, List.append_cancel_left_eq,
        List.nil_append, List.cons.injEq] at he
      exact he.2
    -- the blank `b` is none of the letters of the other connective
    have hshort : v.length ≤ between.length := by
      cases List.append_eq_append_iff.1 htail with
      | inl hlong =>
        obtain ⟨more, rfl, hmore⟩ := hlong
        cases more with
        | nil => rw [List.append_nil]
        | cons m more =>
          obtain ⟨rfl, -⟩ := List.cons_eq_cons.1 hmore
          rw [hv.not_isBlank b (by simp)] at hb
          cases hb
      | inr hshort =>
        obtain ⟨more, rfl, -⟩ := hshort
        rw [List.length_append]
        omega
    simp only [List.length_append, List.length_cons, List.length_nil]
    omega

theorem cut?_append (h : k.cut? s = some (left, right)) (t : List Char) :
    k.cut? (s ++ t) = some (left, right ++ t) := by
  obtain ⟨sep, rfl, hfirst⟩ := cut?_eq_some_iff.1 h
  refine cut?_eq_some_iff.2 ⟨sep, List.append_assoc _ _ _, hfirst.append ?_⟩
  intro before sep' after hsep' he hlt
  refine Nat.le_trans (hfirst.holds.length_le hsep' he hlt) ?_
  exact (List.prefix_append _ right).length_le

def EndsIn (k : Connective) (s : List Char) : Prop :=
  ∃ before b u, isBlank b = true ∧ k.Spells u ∧ s = before ++ b :: u

/-- One more word can complete the separator that the text ends in, and no other. -/
theorem eq_of_cut?_append_word (hs : k.cut? s = none) (hw : ∀ c ∈ w, isBlank c = false)
    (h : k.cut? (s ++ ' ' :: w) = some (left, right)) : right = w ∧ k.EndsIn s := by
  obtain ⟨sep, he, hfirst⟩ := cut?_eq_some_iff.1 h
  obtain ⟨b, u, b', hb, hu, hb', rfl⟩ := hfirst.holds
  have hsides : s ++ ' ' :: w = (left ++ b :: u) ++ b' :: right := by simpa using he
  cases List.append_eq_append_iff.1 hsides with
  | inl hlong =>
    obtain ⟨more, hs', hmore⟩ := hlong
    cases more with
    | nil =>
      obtain ⟨-, rfl⟩ := List.cons_eq_cons.1 hmore
      exact ⟨rfl, left, b, u, hb, hu, by rw [hs', List.append_nil]⟩
    | cons m more =>
      obtain ⟨-, rfl⟩ := List.cons_eq_cons.1 hmore
      rw [hw b' (by simp)] at hb'
      cases hb'
  | inr hshort =>
    obtain ⟨more, rfl, hmore⟩ := hshort
    cases more with
    | nil =>
      obtain ⟨-, rfl⟩ := List.cons_eq_cons.1 hmore
      exact ⟨rfl, left, b, u, hb, hu, List.append_nil _⟩
    | cons m more =>
      obtain ⟨rfl, -⟩ := List.cons_eq_cons.1 hmore
      refine absurd ⟨left, b :: (u ++ [b']), more, ⟨b, u, b', hb, hu, hb', rfl⟩, ?_⟩
        (cut?_eq_none_iff.1 hs)
      simp

theorem EndsIn.cut?_ne_none (h : k.EndsIn s) (w : List Char) : k.cut? (s ++ ' ' :: w) ≠ none := by
  obtain ⟨before, b, u, hb, hu, rfl⟩ := h
  rw [ne_eq, cut?_eq_none_iff, not_not]
  exact ⟨before, b :: (u ++ [' ']), w, ⟨b, u, ' ', hb, hu, by decide, rfl⟩, by simp⟩

theorem Spells.hasOperator_eq_false (h : k.Spells w) : hasOperator w = false := by
  rw [hasOperator, List.any_eq_false]
  intro c hc
  simp only [Bool.or_eq_true, beq_iff_eq, not_or]
  refine ⟨⟨?_, ?_⟩, ?_⟩ <;> rintro rfl <;> refine h.not_mem ?_ hc <;> cases k <;> decide

/-- What stands before an operator has no part in the end. -/
theorem endsIn_append_iff {t : List Char} (ht : hasOperator t = true) :
    k.EndsIn (s ++ t) ↔ k.EndsIn t := by
  constructor
  · intro h
    obtain ⟨before, b, u, hb, hu, he⟩ := h
    cases List.append_eq_append_iff.1 he with
    | inl hlong =>
      obtain ⟨more, -, rfl⟩ := hlong
      exact ⟨more, b, u, hb, hu, rfl⟩
    | inr hshort =>
      obtain ⟨more, -, hmore⟩ := hshort
      cases more with
      | nil => exact ⟨[], b, u, hb, hu, hmore.symm⟩
      | cons m more =>
        obtain ⟨-, hmore⟩ := List.cons_eq_cons.1 hmore
        have hnone := hu.hasOperator_eq_false
        rw [hmore, List.append_eq, hasOperator_append, ht, Bool.or_true] at hnone
        cases hnone
  · intro h
    obtain ⟨before, b, u, hb, hu, rfl⟩ := h
    exact ⟨s ++ before, b, u, hb, hu, (List.append_assoc _ _ _).symm⟩

end Connective

namespace Condition

theorem cut?_of_flatShape {k : Connective} {s left right : List Char}
    (h : flatShape s = .joined k left right) : k.cut? s = some (left, right) := by
  unfold flatShape at h
  split at h
  · next hand =>
    cases h
    exact hand
  · next hor =>
    cases h
    exact hor
  · cases h

theorem flatShape_of_and {s left right : List Char}
    (h : Connective.and.cut? s = some (left, right)) : flatShape s = .joined .and left right := by
  rw [flatShape, h]

theorem flatShape_of_or {s left right : List Char} (hand : Connective.and.cut? s = none)
    (h : Connective.or.cut? s = some (left, right)) : flatShape s = .joined .or left right := by
  rw [flatShape, hand, h]

/-- An AND is looked for before an OR. -/
theorem cut?_and_of_flatShape {s left right : List Char}
    (h : flatShape s = .joined .or left right) : Connective.and.cut? s = none := by
  cases hand : Connective.and.cut? s with
  | none => rfl
  | some sides =>
    rw [flatShape, hand] at h
    cases h

theorem flatShape_cases (s : List Char) :
    (∀ k : Connective, k.cut? s = none) ∨ ∃ k left right, flatShape s = .joined k left right := by
  cases hand : Connective.and.cut? s with
  | some sides => exact .inr ⟨.and, sides.1, sides.2, flatShape_of_and hand⟩
  | none =>
    cases hor : Connective.or.cut? s with
    | some sides => exact .inr ⟨.or, sides.1, sides.2, flatShape_of_or hand hor⟩
    | none =>
      refine .inl ?_
      intro k
      cases k with
      | and => exact hand
      | or => exact hor

theorem read_of_cut {s left right : List Char} {k : Connective} (hs : Flat s)
    (h : flatShape s = .joined k left right) : read s = joinM k (read left) (read right) :=
  read_of_joined (by rw [shape_of_flat hs, h])

/-- What holds of the comparisons and of what is joined from two sides holds of all texts that
are read and have no parentheses. -/
theorem read_induction {motive : List Char → Condition → Prop}
    (comparison : ∀ s d, Flat s → (∀ k : Connective, k.cut? s = none) →
      Comparison.read? s = some d → motive s (leaf d))
    (joined : ∀ k s left right c d, Flat s → flatShape s = .joined k left right →
      read left = .ok c → motive left c → read right = .ok d → motive right d →
      motive s (join k c d))
    {s : List Char} (hs : Flat s) {c : Condition} (h : read s = .ok c) : motive s c := by
  induction hn : s.length using Nat.strong_induction_on generalizing s c with
  | _ n ih =>
    rcases flatShape_cases s with hnone | ⟨k, left, right, hshape⟩
    · have hread := read_of_not_occurs hs (Connective.cut?_eq_none_iff.1 (hnone .and))
        (Connective.cut?_eq_none_iff.1 (hnone .or))
      obtain ⟨d, hd, rfl⟩ := readPiece_eq_ok_iff.1 (hread ▸ h)
      exact comparison s d hs hnone (Comparison.read?_eq_some_iff.2 hd)
    · rw [read_of_cut hs hshape, joinM_eq_ok_iff] at h
      obtain ⟨l, r, hl, hr, rfl⟩ := h
      have hcut := cut?_of_flatShape hshape
      obtain ⟨hleft, hright⟩ := Connective.length_cut hcut
      obtain ⟨sep, rfl, -⟩ := Connective.cut?_eq_some_iff.1 hcut
      exact joined k _ left right l r hs hshape
        hl (ih _ (hn ▸ hleft) (hs.of_infix (infix_left left sep right)) hl rfl)
        hr (ih _ (hn ▸ hright) (hs.of_infix (infix_right left sep right)) hr rfl)

theorem hasOperator_of_read {s : List Char} (hs : Flat s) {c : Condition} (h : read s = .ok c) :
    hasOperator s = true := by
  refine read_induction (motive := fun s _ => hasOperator s = true) ?_ ?_ hs h
  · intro s d _ hnone hd
    by_contra hfalse
    rw [Comparison.read?_eq_none (Bool.not_eq_true _ ▸ hfalse)] at hd
    cases hd
  · intro k s left right c d hs hshape hl hleft hr hright
    obtain ⟨sep, rfl, -⟩ := Connective.cut?_eq_some_iff.1 (cut?_of_flatShape hshape)
    rw [hasOperator_append, hright, Bool.or_true]

end Condition

def Comparison.lengthen (c : Comparison) (w : List Char) : Comparison :=
  { c with literal := String.ofList (trim (c.literal.toList ++ ' ' :: w)) }

theorem Comparison.read?_append_word {s w : List Char} {d : Comparison}
    (hs : ∀ c, s.getLast? = some c → isBlank c = false) (hw : hasOperator w = false)
    (h : read? s = some d) : read? (s ++ ' ' :: w) = some (d.lengthen w) := by
  obtain ⟨r, hr, h⟩ := Option.bind_eq_some_iff.1 h
  obtain ⟨⟨left, right⟩, hcut, h⟩ := Option.bind_eq_some_iff.1 h
  cases h
  have hoperator : hasOperator (' ' :: w) = false := hw
  have hright : ∀ c, right.getLast? = some c → isBlank c = false := by
    intro c hc
    obtain ⟨rfl, -⟩ := cutAt?_eq_some_iff.1 hcut
    refine hs c ?_
    rw [List.getLast?_append, hc]
    rfl
  simp only [read?, Relation.scan?_append hoperator s, hr, cutAt?_append hcut, lengthen,
    Option.bind_eq_bind, Option.bind_some, Option.pure_def, String.toList_ofList,
    trim_append_of_last hright]

namespace Condition

def lengthen : Condition → List Char → Condition
  | leaf c, w => leaf (c.lengthen w)
  | join k left right, w => join k left (right.lengthen w)

section
variable {s w left right : List Char} {k : Connective}

/-- A word that stands alone is no comparison. -/
theorem exists_read_word_eq_error (hw : k.Spells w) : ∃ e, read w = .error e := by
  cases h : read w with
  | error e => exact ⟨e, rfl⟩
  | ok c =>
    have hop := hasOperator_of_read hw.flat h
    rw [hw.hasOperator_eq_false] at hop
    cases hop

theorem exists_joinM_eq_error {l r : Except QueryError Condition} (h : ∃ e, r = .error e) :
    ∃ e, joinM k l r = .error e := by
  obtain ⟨e, rfl⟩ := h
  cases l with
  | error e' => exact ⟨e', rfl⟩
  | ok c => exact ⟨e, rfl⟩

/-- A connective that was no separator before has the new word alone on its right. -/
theorem error_of_new_cut {j : Connective} (hs : Flat s) (hw : k.Spells w) (hnone : j.cut? s = none)
    (h : flatShape (s ++ ' ' :: w) = .joined j left right) :
    j.EndsIn s ∧ ∃ e, read (s ++ ' ' :: w) = .error e := by
  have hword : Flat (' ' :: w) := Flat.append (s := [' ']) (by decide) hw.flat
  have hcut : j.cut? (s ++ ' ' :: w) = some (left, right) := cut?_of_flatShape h
  obtain ⟨rfl, hends⟩ := Connective.eq_of_cut?_append_word hnone hw.not_isBlank hcut
  rw [read_of_cut (hs.append hword) h]
  exact ⟨hends, exists_joinM_eq_error (exists_read_word_eq_error hw)⟩

/-- One more word behind a text makes a connective of the word that the text ends in, if that
word is one. Otherwise it belongs to the last literal. -/
theorem read_append_word (hs : Flat s) {c : Condition} (h : read s = .ok c)
    (hlast : ∀ b, s.getLast? = some b → isBlank b = false) (hw : k.Spells w) :
    ((∃ j : Connective, j.EndsIn s) → ∃ e, read (s ++ ' ' :: w) = .error e) ∧
      ((∀ j : Connective, ¬ j.EndsIn s) → read (s ++ ' ' :: w) = .ok (c.lengthen w)) := by
  have hword : Flat (' ' :: w) := Flat.append (s := [' ']) (by decide) hw.flat
  revert hlast
  refine read_induction (motive := fun s c => (∀ b, s.getLast? = some b → isBlank b = false) →
    ((∃ j : Connective, j.EndsIn s) → ∃ e, read (s ++ ' ' :: w) = .error e) ∧
      ((∀ j : Connective, ¬ j.EndsIn s) → read (s ++ ' ' :: w) = .ok (c.lengthen w))) ?_ ?_ hs h
  · intro s d hs hnone hd hlast
    rcases flatShape_cases (s ++ ' ' :: w) with hnone' | ⟨j, left, right, hshape⟩
    · constructor
      · intro hends
        obtain ⟨j, hj⟩ := hends
        exact absurd (hnone' j) (hj.cut?_ne_none w)
      · intro _
        rw [read_of_not_occurs (hs.append hword) (Connective.cut?_eq_none_iff.1 (hnone' .and))
          (Connective.cut?_eq_none_iff.1 (hnone' .or)), readPiece,
          Comparison.read?_append_word hlast hw.hasOperator_eq_false hd]
        rfl
    · obtain ⟨hj, herror⟩ := error_of_new_cut hs hw (hnone j) hshape
      exact ⟨fun _ => herror, fun hnot => absurd hj (hnot j)⟩
  · intro j s left right c d hs hshape hl _ hr ih hlast
    have hcut := cut?_of_flatShape hshape
    obtain ⟨sep, hsides, -⟩ := Connective.cut?_eq_some_iff.1 hcut
    have hright : Flat right := hs.of_infix (hsides ▸ infix_right left sep right)
    have hends : ∀ i : Connective, i.EndsIn s ↔ i.EndsIn right := by
      intro i
      rw [hsides, Connective.endsIn_append_iff (hasOperator_of_read hright hr)]
    obtain ⟨herror, hok⟩ := ih fun b hb => hlast b (by rw [hsides, List.getLast?_append, hb]; rfl)
    -- where the leftmost connective is still the one that cuts, the right side decides
    have hkept : flatShape (s ++ ' ' :: w) = .joined j left (right ++ ' ' :: w) →
        ((∃ i : Connective, i.EndsIn s) → ∃ e, read (s ++ ' ' :: w) = .error e) ∧
          ((∀ i : Connective, ¬ i.EndsIn s) →
            read (s ++ ' ' :: w) = .ok ((join j c d).lengthen w)) := by
      intro hshape'
      rw [read_of_cut (hs.append hword) hshape']
      simp only [hends]
      refine ⟨fun h => exists_joinM_eq_error (herror h), fun h => ?_⟩
      rw [hl, hok h]
      rfl
    have hcut' := Connective.cut?_append hcut (' ' :: w)
    cases j with
    | and => exact hkept (flatShape_of_and hcut')
    | or =>
      have hnone := cut?_and_of_flatShape hshape
      cases hand : Connective.and.cut? (s ++ ' ' :: w) with
      | none => exact hkept (flatShape_of_or hand hcut')
      | some sides =>
        obtain ⟨hj, herror⟩ := error_of_new_cut hs hw hnone (flatShape_of_and hand)
        exact ⟨fun _ => herror, fun hnot => absurd hj (hnot .and)⟩

end

end Condition
end TableQuery
