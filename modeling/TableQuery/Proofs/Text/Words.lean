import Mathlib.Data.List.Basic
import TableQuery.Proofs.Text.Blank

/-! The words of a text that is put together: a blank between two texts parts their words. -/
namespace TableQuery.Text

theorem pieces_ne_nil (p : Char → Bool) (s : List Char) : pieces p s ≠ [] := by
  intro h
  have hhead := head?_pieces p s
  rw [h] at hhead
  cases hhead

/-- A separator parts the pieces on its two sides. -/
theorem pieces_append {p : Char → Bool} {c : Char} (hc : p c = true) (s t : List Char) :
    pieces p (s ++ c :: t) = pieces p s ++ pieces p t := by
  induction s with
  | nil => simp [pieces, hc]
  | cons x s ih =>
    rw [List.cons_append, pieces, pieces, ih]
    cases hx : p x with
    | true => rfl
    | false =>
      obtain ⟨piece, rest, hs⟩ := List.exists_cons_of_ne_nil (pieces_ne_nil p s)
      rw [hs]
      rfl

theorem pieces_of_forall_not {p : Char → Bool} {s : List Char} (h : ∀ c ∈ s, p c = false) :
    pieces p s = [s] := by
  induction s with
  | nil => rfl
  | cons c s ih =>
    obtain ⟨hc, hs⟩ := List.forall_mem_cons.1 h
    simp [pieces, hc, ih hs]

/-- The pieces are made of all characters that are not separators. -/
theorem forall_mem_pieces {p : Char → Bool} {P : Char → Prop} {s : List Char} :
    (∀ piece ∈ pieces p s, ∀ c ∈ piece, P c) ↔ ∀ c ∈ s, p c = true ∨ P c := by
  induction s with
  | nil => simp [pieces]
  | cons c s ih =>
    rw [List.forall_mem_cons, ← ih, pieces]
    cases hc : p c with
    | true => simp
    | false =>
      obtain ⟨piece, rest, hs⟩ := List.exists_cons_of_ne_nil (pieces_ne_nil p s)
      simp [hs, and_assoc]

theorem words_append {b : Char} (hb : isBlank b = true) (s t : List Char) :
    words (s ++ b :: t) = words s ++ words t := by
  rw [words, pieces_append hb, List.filter_append]
  rfl

theorem words_of_blank {s : List Char} (h : ∀ c ∈ s, isBlank c = true) : words s = [] := by
  induction s with
  | nil => rfl
  | cons b s ih =>
    obtain ⟨hb, hs⟩ := List.forall_mem_cons.1 h
    have happend := words_append hb [] s
    rw [List.nil_append, ih hs] at happend
    exact happend

theorem words_of_word {w : List Char} (hw : ∀ c ∈ w, isBlank c = false) (hne : w ≠ []) :
    words w = [w] := by
  rw [words, pieces_of_forall_not hw]
  simp [hne]

theorem words_ne_nil {s : List Char} (h : trim s ≠ []) : words s ≠ [] := by
  intro hwords
  have hhead := head?_words h
  rw [hwords] at hhead
  cases hhead

theorem words_eq_nil_iff {s : List Char} : words s = [] ↔ trim s = [] :=
  ⟨not_imp_not.1 words_ne_nil, fun h => words_of_blank (trim_eq_nil_iff.1 h)⟩

/-- What stands before a blank does not change the last word. -/
theorem getLast?_words_append {s t : List Char} {b : Char} (hb : isBlank b = true)
    (h : trim t ≠ []) : (words (s ++ b :: t)).getLast? = (words t).getLast? := by
  rw [words_append hb, List.getLast?_append_of_ne_nil _ (words_ne_nil h)]

theorem words_word_append {w t : List Char} (hw : ∀ c ∈ w, isBlank c = false) (hne : w ≠ [])
    (ht : ∀ c ∈ t, isBlank c = true) : words (w ++ t) = [w] := by
  cases t with
  | nil => rw [List.append_nil, words_of_word hw hne]
  | cons b t =>
    obtain ⟨hb, ht⟩ := List.forall_mem_cons.1 ht
    rw [words_append hb, words_of_word hw hne, words_of_blank ht, List.append_nil]

end TableQuery.Text
