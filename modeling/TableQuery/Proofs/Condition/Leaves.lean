import TableQuery.Proofs.Condition.Display
import TableQuery.Proofs.Condition.Parentheses
import TableQuery.Proofs.Text.Terms

/-! The comparisons of a condition that was read. Each is what a text without parentheses says,
and is read from its display again: the blanks around the symbol of its relation make no symbol
that was not in the text, and leave the first one where it was. -/
namespace TableQuery
open TableQuery.Text

namespace Comparison
variable {c : Comparison} {piece : List Char}

/-- A symbol is not broken by the blanks of a display. -/
theorem within_display_iff {r : Relation} :
    r.Within (Condition.leaf c).display.toList ↔
      r.Within c.column.toList ∨ r.symbol.toList <:+: c.relation.symbol.toList ∨
        r.Within c.literal.toList := by
  have hblank : ' ' ∉ r.symbol.toList := by
    cases r <;> decide
  rw [Relation.Within, toList_display, infix_append_cons_iff hblank, List.append_assoc,
    List.singleton_append, infix_append_cons_iff hblank, or_assoc]
  rfl

theorem IsReading.isInfix_column (h : c.IsReading piece) : c.column.toList <:+: piece := by
  obtain ⟨left, right, rfl, -, hcolumn, -⟩ := h.sides
  rw [hcolumn, String.toList_ofList]
  exact (isInfix_trim left).trans (infix_left _ _ _)

theorem IsReading.isInfix_literal (h : c.IsReading piece) : c.literal.toList <:+: piece := by
  obtain ⟨left, right, rfl, -, -, hliteral⟩ := h.sides
  rw [hliteral, String.toList_ofList]
  exact (isInfix_trim right).trans (infix_right _ _ _)

theorem IsReading.trim_column (h : c.IsReading piece) :
    trim c.column.toList = c.column.toList := by
  obtain ⟨left, right, -, -, hcolumn, -⟩ := h.sides
  rw [hcolumn, String.toList_ofList, trim_trim]

theorem IsReading.trim_literal (h : c.IsReading piece) :
    trim c.literal.toList = c.literal.toList := by
  obtain ⟨left, right, -, -, -, hliteral⟩ := h.sides
  rw [hliteral, String.toList_ofList, trim_trim]

/-- The text is cut at the first symbol, so that none is left in the column. -/
theorem IsReading.not_within_column (h : c.IsReading piece) :
    ¬ c.relation.Within c.column.toList := by
  obtain ⟨left, right, -, hfirst, hcolumn, -⟩ := h.sides
  intro hwithin
  rw [hcolumn, String.toList_ofList] at hwithin
  obtain ⟨before, after, he⟩ := hwithin.trans (isInfix_trim left)
  have hnonempty : c.relation.symbol.toList ≠ [] := c.relation.symbol_ne_nil
  exact hfirst.not_occurs hnonempty ⟨before, _, after, rfl, he.symm⟩

/-- No symbol is in the display that is not in the text. -/
theorem IsReading.within_of_display (h : c.IsReading piece) {r : Relation}
    (hr : r.Within (Condition.leaf c).display.toList) : r.Within piece := by
  rcases within_display_iff.1 hr with hcolumn | hsymbol | hliteral
  · exact hcolumn.trans h.isInfix_column
  · exact hsymbol.trans h.within
  · exact hliteral.trans h.isInfix_literal

theorem IsReading.display (h : c.IsReading piece) :
    c.IsReading (Condition.leaf c).display.toList := by
  obtain ⟨before, after, horder, hafter⟩ := h.last
  refine isReading_display h.cast h.trim_column h.trim_literal h.not_within_column
    ⟨before, after, horder, ?_⟩
  intro r hr hwithin
  exact hafter r hr (h.within_of_display hwithin)

structure IsLegible (c : Comparison) : Prop where
  trim_column : trim c.column.toList = c.column.toList
  trim_literal : trim c.literal.toList = c.literal.toList
  flat_column : Flat c.column.toList
  flat_literal : Flat c.literal.toList
  symbol : ¬ c.relation.Within c.column.toList
  again : read? (Condition.leaf c).display.toList = some c

theorem IsReading.isLegible (h : c.IsReading piece) (hflat : Flat piece) : c.IsLegible where
  trim_column := h.trim_column
  trim_literal := h.trim_literal
  flat_column := hflat.of_infix h.isInfix_column
  flat_literal := hflat.of_infix h.isInfix_literal
  symbol := h.not_within_column
  again := read?_eq_some_iff.2 h.display

end Comparison

namespace Condition

theorem Grouped.shape_ne_comparison (g : Grouped) : g.shape ≠ .comparison := by
  unfold Grouped.shape
  dsimp only
  split
  · nofun
  · nofun
  · split <;> nofun

theorem flat_of_shape_comparison {s : List Char} (h : shape s = .ok .comparison) : Flat s := by
  rcases firstGroup_cases s with hs | ⟨before, inner, after, rfl, hbefore, hinner⟩ | ⟨fault, hs⟩
  · exact hs
  · rw [shape_append hbefore hinner] at h
    exact absurd (Except.ok.inj h) (Grouped.shape_ne_comparison _)
  · rw [shape, hs] at h
    cases h

/-- Every comparison of a condition is what some part of the text says. -/
theorem exists_isReading_of_mem_leaves {s : List Char} {c : Condition} (h : read s = .ok c)
    {l : Comparison} (hl : l ∈ c.leaves) : ∃ piece, Flat piece ∧ l.IsReading piece := by
  fun_induction read s generalizing c with
  | case1 s fault hs => cases h
  | case2 s hs d hd =>
    cases h
    cases List.mem_singleton.1 hl
    exact ⟨s, flat_of_shape_comparison hs, Comparison.read?_eq_some_iff.1 hd⟩
  | case3 s hs hd => cases h
  | case4 s inner hs hlength ih => exact ih h hl
  | case5 s k left right hs hleft hright ihl ihr =>
    obtain ⟨l', r', hl', hr', rfl⟩ := joinM_eq_ok_iff.1 h
    rw [leaves, List.mem_append] at hl
    cases hl with
    | inl hmem => exact ihl hl' hmem
    | inr hmem => exact ihr hr' hmem

/-- The comparisons of a text that is read are trimmed, have no parentheses, and are read again
from what they are displayed as. -/
theorem isLegible_of_mem_leaves {text : String} {c : Condition}
    (h : ofText text = .ok (some c)) {l : Comparison} (hl : l ∈ c.leaves) : l.IsLegible := by
  have hnonblank : trim text.toList ≠ [] := by
    intro hblank
    rw [ofText, hblank] at h
    cases h
  obtain ⟨piece, hflat, hreading⟩ :=
    exists_isReading_of_mem_leaves ((ofText_eq_ok_some_iff hnonblank).1 h) hl
  exact hreading.isLegible hflat

/-- Symbols that overlap, a symbol in a literal, and symbols in a column. -/
theorem isLegible_overlapping_symbols :
    let c := join .or (leaf ⟨"a", .le, "= b", none⟩) (leaf ⟨"x! =", .gt, "", none⟩)
    ofText "(a <= = b) oR x! = >" = .ok (some c) ∧ ∀ l ∈ c.leaves, l.IsLegible := by
  intro c
  have hshape : shape "(a <= = b) oR x! = >".toList =
      .ok (.joined .or "a <= = b".toList "x! = >".toList) := rfl
  have hread : read "(a <= = b) oR x! = >".toList = .ok c := by
    rw [read_of_joined hshape, read_of_comparison (s := "a <= = b".toList) rfl,
      read_of_comparison (s := "x! = >".toList) rfl]
    rfl
  have htext : ofText "(a <= = b) oR x! = >" = .ok (some c) :=
    (ofText_eq_ok_some_iff (by decide)).2 hread
  exact ⟨htext, fun l hl => isLegible_of_mem_leaves htext hl⟩

end Condition
end TableQuery
