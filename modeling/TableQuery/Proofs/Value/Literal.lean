import TableQuery.Proofs.Timestamp.Reading
import TableQuery.Proofs.Value.Kind

/-! Integers and times as the literals of comparisons. A literal that a value is written as is
cast to that value, and has no character in it that means something else in a condition. -/
namespace TableQuery
open TableQuery.Text

namespace Value

theorem readInt?_integerDigits (i : Int64) : readInt? (integerDigits i.toInt) = some i := by
  have hrange : -0x8000000000000000 ≤ i.toInt ∧ i.toInt < 0x8000000000000000 :=
    ⟨i.le_toInt, i.toInt_lt⟩
  rw [readInt?, readInteger?_integerDigits, Option.bind_some, if_pos hrange, Int64.ofInt_toInt]

def isMark (c : Char) : Bool :=
  c.isDigit || ['+', '-', ':', '.', ' ', '\'', '"'].contains c

theorem isMark_of_isDigit {c : Char} (h : c.isDigit = true) : isMark c = true := by
  rw [isMark, h, Bool.true_or]

theorem isMark_of_mem_plainText {t : Timestamp} : ∀ c ∈ t.plainText, isMark c = true := by
  have hdigits : ∀ width n, ∀ c ∈ paddedDigits width n, isMark c = true := by
    intro width n c hc
    exact isMark_of_isDigit (isDigit_of_mem_paddedDigits hc)
  have hyear : ∀ c ∈ Timestamp.yearText t.date.year, isMark c = true := by
    rw [Timestamp.yearText]
    split
    · exact hdigits _ _
    · refine List.forall_mem_cons.2 ⟨?_, hdigits _ _⟩
      split <;> rfl
  have hfraction : ∀ c ∈ Timestamp.fractionText t.fraction, isMark c = true := by
    rw [Timestamp.fractionText]
    split
    · exact List.forall_mem_nil _
    · split
      · exact List.forall_mem_cons.2 ⟨rfl, hdigits _ _⟩
      · split
        · exact List.forall_mem_cons.2 ⟨rfl, hdigits _ _⟩
        · exact List.forall_mem_cons.2 ⟨rfl, hdigits _ _⟩
  have hoffset : ∀ c ∈ " +0000".toList, isMark c = true := List.all_eq_true.1 rfl
  simp only [Timestamp.plainText, Timestamp.dateText, Timestamp.timeText, List.forall_mem_append,
    List.forall_mem_cons]
  exact ⟨⟨⟨hyear, rfl, hdigits _ _, rfl, hdigits _ _⟩, rfl,
    ⟨hdigits _ _, rfl, hdigits _ _, rfl, hdigits _ _⟩, hfraction⟩, hoffset⟩

inductive IsLiteral : Value → String → Prop
  | int (i : Int64) : IsLiteral (int i) (int i).display
  | time (t : Timestamp) : IsLiteral (time t) (time t).display
  | quoted {quote : Char} (h : Timestamp.IsQuote quote) (t : Timestamp) :
      IsLiteral (time t) (String.ofList (quote :: ((time t).display.toList ++ [quote])))

namespace IsLiteral
variable {v : Value} {literal : String}

theorem ofLiteral_eq (h : v.IsLiteral literal) {sample : Value} (hkind : sample.kind = v.kind) :
    ofLiteral sample literal = v := by
  rw [ofLiteral_eq_of_kind_eq hkind]
  cases h with
  | int i => simp [ofLiteral, display, readInt?_integerDigits]
  | time t => simp [ofLiteral, display, Timestamp.read?_plainText]
  | quoted h t => simp [ofLiteral, display, Timestamp.read?_quoted h]

theorem isMark (h : v.IsLiteral literal) : ∀ c ∈ literal.toList, isMark c = true := by
  cases h with
  | int i =>
    rw [display, String.toList_ofList]
    intro c hc
    rcases eq_or_isDigit_of_mem_integerDigits hc with rfl | hdigit
    · rfl
    · exact isMark_of_isDigit hdigit
  | time t =>
    rw [display, String.toList_ofList]
    exact isMark_of_mem_plainText
  | @quoted quote h t =>
    have hquote : Value.isMark quote = true := by
      rcases h with rfl | rfl <;> rfl
    rw [display, String.toList_ofList, String.toList_ofList, List.forall_mem_cons,
      List.forall_mem_append, List.forall_mem_singleton]
    exact ⟨hquote, isMark_of_mem_plainText, hquote⟩

theorem ne_nil (h : v.IsLiteral literal) : literal.toList ≠ [] := by
  cases h with
  | int i =>
    rw [display, String.toList_ofList]
    exact integerDigits_ne_nil _
  | time t =>
    rw [display, String.toList_ofList, Timestamp.plainText]
    exact List.append_ne_nil_of_right_ne_nil _ (by decide)
  | quoted h t =>
    rw [String.toList_ofList]
    exact List.cons_ne_nil _ _

theorem trim_eq (h : v.IsLiteral literal) : trim literal.toList = literal.toList := by
  cases h with
  | int i =>
    have hblank : ∀ c ∈ integerDigits i.toInt, isBlank c = false := by
      intro c hc
      rcases eq_or_isDigit_of_mem_integerDigits hc with rfl | hdigit
      · rfl
      · exact isBlank_of_isDigit hdigit
    rw [display, String.toList_ofList]
    refine trim_eq_self ?_ ?_
    · intro c hc
      exact hblank c (List.mem_of_head? hc)
    · intro c hc
      exact hblank c (List.mem_of_getLast? hc)
  | time t => rw [display, String.toList_ofList, Timestamp.trim_plainText]
  | quoted h t => rw [display, String.toList_ofList, String.toList_ofList, Timestamp.trim_quoted h]

end IsLiteral
end Value
end TableQuery
