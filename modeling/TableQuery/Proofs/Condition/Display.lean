import Mathlib.Data.Bool.AllAny
import TableQuery.Proofs.Condition.Pieces
import TableQuery.Proofs.Text.Words

/-! A comparison is read back from its display. Its column and its literal must be trimmed, its
symbol may not be in its column, and no symbol that is looked for later may be anywhere. -/
namespace TableQuery
open TableQuery.Text

namespace Text

/-- A word without a `c` in it lies before the first `c`, or behind it. -/
theorem infix_or_length_lt {word before after s t : List Char} {c : Char} (hc : c ∉ word)
    (he : before ++ word ++ after = s ++ c :: t) : word <:+: s ∨ s.length < before.length := by
  by_cases hbehind : s.length < before.length
  · exact .inr hbehind
  -- The `c` behind `s` would have its place in the word, or else the word ends before it.
  rcases Nat.lt_or_ge s.length (before ++ word).length with hin | hbefore
  · have hget : (before ++ word ++ after)[s.length]? = some c := by
      rw [he, List.getElem?_append_right (Nat.le_refl _), Nat.sub_self]
      rfl
    rw [List.getElem?_append_left hin, List.getElem?_append_right (Nat.not_lt.1 hbehind)] at hget
    exact absurd (List.mem_of_getElem? hget) hc
  · have hprefix : before ++ word <+: s :=
      List.prefix_of_prefix_length_le ⟨after, he⟩ (List.prefix_append s (c :: t)) hbefore
    exact .inl ((List.suffix_append before word).isInfix.trans hprefix.isInfix)

/-- A word without a `c` in it is on one side of a `c`. -/
theorem infix_append_cons_iff {word s t : List Char} {c : Char} (hc : c ∉ word) :
    word <:+: s ++ c :: t ↔ word <:+: s ∨ word <:+: t := by
  constructor
  · intro h
    obtain ⟨before, after, he⟩ := h
    refine (infix_or_length_lt hc he).imp_right fun hlt => ?_
    rw [List.append_assoc] at he
    rcases List.append_eq_append_iff.1 he with ⟨more, rfl, -⟩ | ⟨more, rfl, hmore⟩
    · simp only [List.length_append] at hlt
      omega
    · cases more with
      | nil => simp at hlt
      | cons d more =>
        obtain ⟨-, rfl⟩ := List.cons_eq_cons.1 hmore
        exact ⟨more, after, List.append_assoc _ _ _⟩
  · intro h
    cases h with
    | inl hs => exact hs.trans (List.prefix_append s _).isInfix
    | inr ht => exact ht.trans ((List.suffix_cons c t).trans (List.suffix_append s _)).isInfix

/-- A word that is not in `s`, and has no `c` in it, is first found behind `s` and the `c`. -/
theorem firstMatch_append_singleton {word s : List Char} {c : Char} (hs : ¬ word <:+: s)
    (hc : c ∉ word) (rest : List Char) : FirstMatch (word = ·) (s ++ [c]) word rest := by
  refine ⟨rfl, ?_⟩
  intro before' found' after' hfound he
  subst hfound
  have hcut : before' ++ word ++ after' = s ++ c :: (word ++ rest) := by
    rw [← he, List.append_assoc, List.append_assoc, List.singleton_append]
  rw [List.length_append]
  exact (infix_or_length_lt hc hcut).resolve_left hs

end Text

/-- A connective needs a blank before it, and letters behind that. -/
theorem Connective.not_occurs_isSeparator {k : Connective} {s t : List Char}
    (hs : ∀ c ∈ s, isBlank c = false) (ht : ∀ c ∈ t, c.toLower ∉ k.word) :
    ¬ Occurs k.IsSeparator (s ++ t) := by
  intro hex
  obtain ⟨before, sep, after, ⟨b, w, b', hb, hw, -, rfl⟩, he⟩ := hex
  obtain ⟨c, hc⟩ := List.exists_mem_of_ne_nil w hw.ne_nil
  have hmem : c ∈ t := by
    rw [List.append_assoc] at he
    rcases List.append_eq_append_iff.1 he with ⟨more, -, rfl⟩ | ⟨more, rfl, hmore⟩
    · simp [hc]
    · -- The separator would begin in `s`, with its blank.
      cases more with
      | nil =>
        rw [List.nil_append] at hmore
        simp [← hmore, hc]
      | cons d more =>
        obtain ⟨rfl, -⟩ := List.cons_eq_cons.1 hmore
        have hnot := hs b (by simp)
        rw [hb] at hnot
        cases hnot
  exact hw.not_mem (ht c hmem) hc

namespace Comparison
variable {c : Comparison}

theorem toList_display (c : Comparison) : (Condition.leaf c).display.toList =
    (c.column.toList ++ [' ']) ++ c.relation.symbol.toList ++ ' ' :: c.literal.toList := by
  simp [Condition.display]

theorem isReading_display (hcast : c.cast = none)
    (hcolumn : trim c.column.toList = c.column.toList)
    (hliteral : trim c.literal.toList = c.literal.toList)
    (hfirst : ¬ c.relation.Within c.column.toList)
    (hlast : ∃ before after, Relation.scanOrder = before ++ c.relation :: after ∧
      ∀ r ∈ after, ¬ r.Within (Condition.leaf c).display.toList) :
    c.IsReading (Condition.leaf c).display.toList := by
  have hblank : ∀ b ∈ [' '], isBlank b = true := List.forall_mem_singleton.2 rfl
  have hsymbol : ' ' ∉ c.relation.symbol.toList := by
    cases c.relation <;> decide
  refine ⟨?_, hlast, ⟨_, _, c.toList_display, firstMatch_append_singleton hfirst hsymbol _, ?_, ?_⟩,
    hcast⟩
  · rw [toList_display]
    exact ⟨_, _, rfl⟩
  · rw [trim_append_blank hblank, hcolumn, String.ofList_toList]
  · rw [← List.singleton_append, trim_blank_append hblank, hliteral, String.ofList_toList]

end Comparison

def isReserved (c : Char) : Bool := ['(', ')', '=', '<', '>', '!'].contains c

theorem flat_of_not_isReserved {s : List Char} (h : ∀ c ∈ s, isReserved c = false) : Flat s := by
  refine ⟨?_, ?_⟩
  · intro hopen
    cases h '(' hopen
  · intro hclose
    cases h ')' hclose

namespace Relation

theorem isReserved_of_mem_symbol {r : Relation} : ∀ c ∈ r.symbol.toList, isReserved c = true := by
  refine List.all_eq_true.1 ?_
  cases r <;> rfl

theorem symbol_ne_nil (r : Relation) : r.symbol.toList ≠ [] := by
  cases r <;> decide

/-- The symbols that are looked for later are not made of the characters of this one. -/
theorem exists_scanOrder_eq (r : Relation) : ∃ before after, scanOrder = before ++ r :: after ∧
    ∀ r' ∈ after, ¬ r'.symbol.toList ⊆ r.symbol.toList := by
  cases r with
  | eq => exact ⟨[], [ne, lt, le, gt, ge], rfl, by decide⟩
  | ne => exact ⟨[eq], [lt, le, gt, ge], rfl, by decide⟩
  | lt => exact ⟨[eq, ne], [le, gt, ge], rfl, by decide⟩
  | le => exact ⟨[eq, ne, lt], [gt, ge], rfl, by decide⟩
  | gt => exact ⟨[eq, ne, lt, le], [ge], rfl, by decide⟩
  | ge => exact ⟨[eq, ne, lt, le, gt], [], rfl, by decide⟩

theorem not_within_of_not_isReserved {r : Relation} {s : List Char}
    (h : ∀ c ∈ s, isReserved c = false) : ¬ r.Within s := by
  intro hwithin
  obtain ⟨c, hc⟩ := List.exists_mem_of_ne_nil _ r.symbol_ne_nil
  have hnot := h c (hwithin.subset hc)
  rw [isReserved_of_mem_symbol c hc] at hnot
  cases hnot

end Relation

namespace Comparison
variable {c : Comparison}

theorem isReading_display_of_not_isReserved (hcast : c.cast = none)
    (hcolumn : trim c.column.toList = c.column.toList)
    (hliteral : trim c.literal.toList = c.literal.toList)
    (hname : ∀ x ∈ c.column.toList, isReserved x = false)
    (htext : ∀ x ∈ c.literal.toList, isReserved x = false) :
    c.IsReading (Condition.leaf c).display.toList := by
  obtain ⟨before, after, horder, hafter⟩ := c.relation.exists_scanOrder_eq
  refine isReading_display hcast hcolumn hliteral (Relation.not_within_of_not_isReserved hname)
    ⟨before, after, horder, ?_⟩
  intro r hr hwithin
  refine hafter r hr ?_
  intro x hx
  have hreserved := Relation.isReserved_of_mem_symbol x hx
  have hmem := hwithin.subset hx
  simp only [toList_display, List.mem_append, List.mem_cons, List.not_mem_nil, or_false] at hmem
  rcases hmem with ((hmem | rfl) | hmem) | rfl | hmem
  · rw [hname x hmem] at hreserved
    cases hreserved
  · cases hreserved
  · exact hmem
  · cases hreserved
  · rw [htext x hmem] at hreserved
    cases hreserved

theorem flat_display (hname : ∀ x ∈ c.column.toList, isReserved x = false)
    (htext : ∀ x ∈ c.literal.toList, isReserved x = false) :
    Flat (Condition.leaf c).display.toList := by
  have hsymbol : Flat c.relation.symbol.toList := by
    cases c.relation <;> decide
  rw [toList_display]
  refine (((flat_of_not_isReserved hname).append (by decide)).append hsymbol).append ?_
  exact flat_of_not_isReserved (List.forall_mem_cons.2 ⟨rfl, htext⟩)

/-- No connective is in it, if the column has no blank and the literal no letter of one. -/
theorem not_occurs_display {k : Connective} (hname : ∀ x ∈ c.column.toList, isBlank x = false)
    (htext : ∀ x ∈ c.literal.toList, x.toLower ∉ k.word) :
    ¬ Occurs k.IsSeparator (Condition.leaf c).display.toList := by
  have hblank : (' ').toLower ∉ k.word := by
    cases k <;> decide
  have hsymbol : ∀ x ∈ c.relation.symbol.toList, x.toLower ∉ k.word := by
    refine List.all_iff_forall_prop.1 ?_
    cases k <;> cases c.relation <;> rfl
  rw [toList_display, List.append_assoc, List.append_assoc]
  refine Connective.not_occurs_isSeparator hname ?_
  simp only [List.forall_mem_append, List.forall_mem_cons]
  exact ⟨⟨hblank, nofun⟩, hsymbol, hblank, htext⟩

theorem trim_display_ne_nil (c : Comparison) : trim (Condition.leaf c).display.toList ≠ [] := by
  obtain ⟨x, hx⟩ := List.exists_mem_of_ne_nil _ c.relation.symbol_ne_nil
  have hblank : ∀ x ∈ c.relation.symbol.toList, isBlank x = false := by
    refine List.all_iff_forall_prop.1 ?_
    cases c.relation <;> rfl
  refine trim_ne_nil_of_mem (c := x) ?_ (hblank x hx)
  rw [toList_display]
  simp [hx]

theorem ofText_display (hcast : c.cast = none)
    (hname : ∀ x ∈ c.column.toList, isBlank x = false ∧ isReserved x = false)
    (hliteral : trim c.literal.toList = c.literal.toList)
    (htext : ∀ x ∈ c.literal.toList, isReserved x = false ∧ ∀ k : Connective, x.toLower ∉ k.word) :
    Condition.ofText (Condition.leaf c).display = .ok (some (.leaf c)) := by
  have hblank : ∀ x ∈ c.column.toList, isBlank x = false := fun x hx => (hname x hx).1
  have hreserved : ∀ x ∈ c.column.toList, isReserved x = false := fun x hx => (hname x hx).2
  have hplain : ∀ x ∈ c.literal.toList, isReserved x = false := fun x hx => (htext x hx).1
  have hwhole : ∀ k : Connective, ¬ Occurs k.IsSeparator (Condition.leaf c).display.toList :=
    fun k => not_occurs_display hblank fun x hx => (htext x hx).2 k
  have hcolumn : trim c.column.toList = c.column.toList :=
    trim_eq_self (fun x hx => hblank x (List.mem_of_head? hx))
      fun x hx => hblank x (List.mem_of_getLast? hx)
  rw [Condition.ofText_eq_ok_some_iff c.trim_display_ne_nil,
    Condition.read_of_not_occurs (flat_display hreserved hplain) (hwhole .and) (hwhole .or)]
  exact Condition.readPiece_eq_ok_iff.2
    ⟨c, isReading_display_of_not_isReserved hcast hcolumn hliteral hreserved hplain, rfl⟩

end Comparison
end TableQuery
