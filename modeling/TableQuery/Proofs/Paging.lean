import TableQuery.Paging
import TableQuery.Proofs.Text.Blank

/-! Counts written in decimal digits are read as what they are, and the pages of a list laid
one after the other are its beginning. -/
namespace TableQuery
open TableQuery.Text

namespace Text

theorem isBlank_of_isDigit {c : Char} (h : c.isDigit = true) : isBlank c = false := by
  rw [Char.isDigit, Bool.and_eq_true, decide_eq_true_eq, decide_eq_true_eq] at h
  have hle : 48 ≤ c.toNat := h.1
  have hge : c.toNat ≤ 57 := h.2
  simp only [isBlank, Bool.or_eq_false_iff, Bool.and_eq_false_iff, decide_eq_false_iff_not,
    beq_eq_false_iff_ne]
  omega

theorem trim_of_forall_isDigit {s : List Char} (h : ∀ c ∈ s, c.isDigit = true) : trim s = s :=
  trim_eq_self (fun _ hc => isBlank_of_isDigit (h _ (List.mem_of_head? hc)))
    fun _ hc => isBlank_of_isDigit (h _ (List.mem_of_getLast? hc))

theorem isDigit_of_mem_digitsOf {n : Nat} {c : Char} (h : c ∈ digitsOf n) : c.isDigit = true :=
  Nat.isDigit_of_mem_toDigits (by decide) (by decide) h

theorem ofDigits_digitsOf (n : Nat) : ofDigits (digitsOf n) = n := Nat.ofDigitChars_ten_toDigits

theorem trimmed_decimal (n : Nat) : trimmed (decimal n) = decimal n := by
  rw [trimmed, decimal, String.toList_ofList,
    trim_of_forall_isDigit fun _ => isDigit_of_mem_digitsOf]

theorem digitsOf_ne_nil (n : Nat) : digitsOf n ≠ [] := Nat.toDigits_ne_nil

theorem decimal_ne_empty (n : Nat) : decimal n ≠ "" := by
  intro h
  have hdigits := congrArg String.toList h
  rw [decimal, String.toList_ofList] at hdigits
  exact digitsOf_ne_nil n hdigits

/-- Blanks behind a number are no part of it. -/
theorem takeWhile_isDigit_trimEnd (s : List Char) :
    (trimEnd s).takeWhile Char.isDigit = s.takeWhile Char.isDigit := by
  obtain ⟨blanks, hs, hblanks⟩ := exists_eq_trimEnd_append s
  have hnone : blanks.takeWhile Char.isDigit = [] := by
    cases blanks with
    | nil => rfl
    | cons b blanks =>
      refine List.takeWhile_cons_of_neg ?_
      intro hdigit
      have hblank := hblanks b List.mem_cons_self
      rw [isBlank_of_isDigit hdigit] at hblank
      cases hblank
  conv => right; rw [hs, List.takeWhile_append, hnone, List.append_nil]
  split
  · next hall => exact (List.takeWhile_prefix _).eq_of_length hall
  · rfl

structure Begins (s : List Char) (n : Nat) : Prop where
  ne_nil : s.takeWhile Char.isDigit ≠ []
  eq : ofDigits (s.takeWhile Char.isDigit) = n

theorem begins_append {s rest : List Char} {c : Char} (hs : ∀ c ∈ s, c.isDigit = true)
    (hne : s ≠ []) (hc : c.isDigit = false) : Begins (s ++ c :: rest) (ofDigits s) := by
  have hfront : (s ++ c :: rest).takeWhile Char.isDigit = s := by
    rw [List.takeWhile_append_of_pos hs, List.takeWhile_cons_of_neg (by simp [hc]),
      List.append_nil]
  exact ⟨by rwa [hfront], by rw [hfront]⟩

theorem begins_zero (rest : List Char) : Begins ('0' :: '.' :: rest) 0 :=
  begins_append (s := ['0']) (List.forall_mem_singleton.2 rfl) (List.cons_ne_nil _ _) rfl

theorem begins_digitsOf (n : Nat) : Begins (digitsOf n) n := by
  have hfront : (digitsOf n).takeWhile Char.isDigit = digitsOf n :=
    List.takeWhile_eq_self_iff.2 fun _ => isDigit_of_mem_digitsOf
  constructor
  · rw [hfront]
    exact digitsOf_ne_nil n
  · rw [hfront, ofDigits_digitsOf]

end Text

namespace Paging

/-- A count is the number in front, where the text does not begin with a blank or a plus sign. -/
theorem count_of_head {c : Char} (hblank : isBlank c = false) (hplus : c ≠ '+') (s : List Char) :
    count (c :: s) = min (ofDigits ((c :: s).takeWhile Char.isDigit)) maxCount := by
  have hstart : trimStart (c :: s) = c :: s := List.dropWhile_cons_of_neg (by simp [hblank])
  rw [count, trim, hstart]
  split
  · next rest heq =>
    obtain ⟨blanks, hs, -⟩ := exists_eq_trimEnd_append (c :: s)
    rw [heq, List.cons_append, List.cons.injEq] at hs
    exact absurd hs.1 hplus
  · rw [takeWhile_isDigit_trimEnd]

theorem count_of_minus (s : List Char) : count ('-' :: s) = 0 := by
  have hnone : ('-' :: s).takeWhile Char.isDigit = [] := List.takeWhile_cons_of_neg (by decide)
  rw [count_of_head (by decide) (by decide), hnone]
  rfl

theorem count_of_begins {s : List Char} {n : Nat} (h : Begins s n) : count s = min n maxCount := by
  cases s with
  | nil => exact absurd rfl h.ne_nil
  | cons c s =>
    have hc : c.isDigit = true := by
      by_contra hc
      exact h.ne_nil (List.takeWhile_cons_of_neg hc)
    have hplus : c ≠ '+' := by
      rintro rfl
      cases hc
    rw [count_of_head (isBlank_of_isDigit hc) hplus, h.eq]

theorem count_trim (s : List Char) : count (trim s) = count s := by
  rw [count, count, trim_trim]

theorem count_decimal {n : Nat} (h : n ≤ maxCount) : count (decimal n).toList = n := by
  rw [decimal, String.toList_ofList, count_of_begins (begins_digitsOf n), Nat.min_eq_left h]

/-- Pages of one size laid one after the other. -/
theorem flatten_pages {α : Type} (l : List α) (size pages : Nat) :
    ((List.range pages).map fun k => (l.drop (k * size)).take size).flatten =
      l.take (pages * size) := by
  induction pages with
  | zero => simp
  | succ pages ih =>
    rw [List.range_succ, List.map_append, List.flatten_append, ih, Nat.succ_mul, List.take_add]
    simp

end Paging
end TableQuery
