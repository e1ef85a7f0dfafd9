import Mathlib.Data.List.Induction
import Mathlib.Data.Nat.Digits.Defs
import TableQuery.Proofs.Text.Digits

/-! A count is the number that the digits in front of a text stand for, whatever their number, up to
the greatest count. -/
namespace TableQuery
open TableQuery.Text

namespace Text

def decimalValue (digits : List Char) : Nat :=
  Nat.ofDigits 10 (digits.reverse.map fun c => c.toNat - '0'.toNat)

theorem decimalValue_eq (digits : List Char) : decimalValue digits = ofDigits digits := by
  induction digits using List.reverseRecOn with
  | nil => rfl
  | append_singleton digits c ih =>
    have hlast : ofDigits [c] = c.toNat - '0'.toNat := by
      rw [ofDigits, Nat.ofDigitChars_cons, Nat.ofDigitChars_nil, Nat.mul_zero, Nat.zero_add]
    rw [ofDigits_append, hlast, ← ih, decimalValue, decimalValue, List.reverse_append,
      List.reverse_singleton, List.singleton_append, List.map_cons, Nat.ofDigits_cons, Nat.add_comm]
    rfl

theorem decimalValue_zeros_append (k : Nat) (digits : List Char) :
    decimalValue (List.replicate k '0' ++ digits) = decimalValue digits := by
  rw [decimalValue_eq, decimalValue_eq, ofDigits_append, ofDigits_replicate_zero, Nat.mul_zero,
    Nat.zero_add]

end Text

namespace Paging
variable {s t digits : List Char}

inductive Signless (s : List Char) : List Char → Prop
  | plus {t : List Char} (h : trim s = '+' :: t) : Signless s t
  | bare (h : (trim s).head? ≠ some '+') : Signless s (trim s)

/-- The digits that a text begins with behind blanks and at most one plus sign, as many as stand
there. -/
def LeadingDigits (s digits : List Char) : Prop :=
  ∃ rest, Signless s (digits ++ rest) ∧ (∀ c ∈ digits, c.isDigit = true) ∧ EndsDigits rest

theorem exists_signless (s : List Char) : ∃ t, Signless s t := by
  by_cases h : (trim s).head? = some '+'
  · obtain ⟨t, ht⟩ := List.head?_eq_some_iff.1 h
    exact ⟨t, .plus ht⟩
  · exact ⟨trim s, .bare h⟩

theorem Signless.unique {u : List Char} (ht : Signless s t) (hu : Signless s u) : t = u := by
  have hhead : ∀ {v : List Char}, trim s = '+' :: v → (trim s).head? = some '+' := by
    intro v hv
    rw [hv, List.head?_cons]
  cases ht with
  | plus ht =>
    cases hu with
    | plus hu => exact (List.cons.inj (ht.symm.trans hu)).2
    | bare hu => exact absurd (hhead ht) hu
  | bare ht =>
    cases hu with
    | plus hu => exact absurd (hhead hu) ht
    | bare hu => rfl

theorem Signless.count_eq (h : Signless s t) :
    count s = min (ofDigits (t.takeWhile Char.isDigit)) maxCount := by
  cases h with
  | plus h =>
    rw [count, h]
    rfl
  | bare h =>
    rw [count]
    split
    · next t ht =>
      rw [ht] at h
      exact absurd rfl h
    · rfl

theorem Signless.leadingDigits_iff (h : Signless s t) :
    LeadingDigits s digits ↔ digits = t.takeWhile Char.isDigit := by
  constructor
  · rintro ⟨rest, ht, hdigits, hrest⟩
    rw [h.unique ht, hrest.takeWhile_append hdigits]
  · rintro rfl
    refine ⟨t.dropWhile Char.isDigit, ?_, fun _ => List.mem_takeWhile_imp, endsDigits_dropWhile t⟩
    rwa [List.takeWhile_append_dropWhile]

theorem LeadingDigits.count_eq (h : LeadingDigits s digits) :
    count s = min (decimalValue digits) maxCount := by
  obtain ⟨t, ht⟩ := exists_signless s
  rw [ht.count_eq, decimalValue_eq, ← ht.leadingDigits_iff.1 h]

theorem existsUnique_leadingDigits (s : List Char) : ∃! digits, LeadingDigits s digits := by
  obtain ⟨t, ht⟩ := exists_signless s
  exact ⟨_, ht.leadingDigits_iff.2 rfl, fun _ => ht.leadingDigits_iff.1⟩

/-- A minus sign leaves no digits in front. -/
theorem leadingDigits_of_minus (h : (trim s).head? = some '-') : LeadingDigits s [] := by
  refine ⟨trim s, .bare ?_, List.forall_mem_nil _, ?_⟩
  · rw [h]
    decide
  · intro c hc
    rw [h] at hc
    cases hc
    rfl

theorem leadingDigits_self (h : ∀ c ∈ digits, c.isDigit = true) : LeadingDigits digits digits := by
  have htrim := trim_of_forall_isDigit h
  refine ⟨[], ?_, h, nofun⟩
  rw [List.append_nil]
  conv => rhs; rw [← htrim]
  refine .bare fun hplus => ?_
  rw [htrim] at hplus
  cases h '+' (List.mem_of_head? hplus)

structure ReadsDigits (s : List Char) : Prop where
  exists_unique : ∃! digits, LeadingDigits s digits
  count_eq : ∀ digits, LeadingDigits s digits → count s = min (decimalValue digits) maxCount
  empty : LeadingDigits s [] → count s = 0
  minus : (trim s).head? = some '-' → count s = 0
  zeros : ∀ k digits, LeadingDigits s (List.replicate k '0' ++ digits) →
    count s = min (decimalValue digits) maxCount

theorem readsDigits (s : List Char) : ReadsDigits s where
  exists_unique := existsUnique_leadingDigits s
  count_eq _ := LeadingDigits.count_eq
  empty := LeadingDigits.count_eq
  minus h := (leadingDigits_of_minus h).count_eq
  zeros k digits h := by rw [h.count_eq, decimalValue_zeros_append]

theorem count_zeros_append_decimal (k n : Nat) :
    count (List.replicate k '0' ++ (decimal n).toList) = min n maxCount := by
  have hdigits : ∀ c ∈ List.replicate k '0' ++ digitsOf n, c.isDigit = true := by
    intro c hc
    cases List.mem_append.1 hc with
    | inl hzero =>
      rw [List.eq_of_mem_replicate hzero]
      rfl
    | inr hdigit => exact isDigit_of_mem_digitsOf hdigit
  rw [decimal, String.toList_ofList, (leadingDigits_self hdigits).count_eq,
    decimalValue_zeros_append, decimalValue_eq, ofDigits_digitsOf]

/-- A text counts as the number that it begins with, and as the greatest count only if that number
is no less. -/
theorem count_reads_digits :
    (∀ s, ReadsDigits s) ∧
      ∀ k n, n ≤ maxCount → count (List.replicate k '0' ++ (decimal n).toList) = n := by
  refine ⟨readsDigits, fun k n h => ?_⟩
  rw [count_zeros_append_decimal, Nat.min_eq_left h]

/-- The greatest count behind zeros, and the next number. -/
theorem count_at_greatest :
    let s := " +0018446744073709551616 rows".toList
    let digits := "0018446744073709551616".toList
    count (List.replicate 3 '0' ++ (decimal maxCount).toList) = maxCount ∧
      LeadingDigits s digits ∧ decimalValue digits = maxCount + 1 ∧ count s = maxCount := by
  intro s digits
  obtain ⟨hreads, hdecimal⟩ := count_reads_digits
  have hdigits : digits.all Char.isDigit = true := by decide
  have hleading : LeadingDigits s digits :=
    ⟨" rows".toList, .plus rfl, List.all_eq_true.1 hdigits, endsDigits_cons rfl _⟩
  have hvalue : decimalValue digits = maxCount + 1 := by decide
  refine ⟨hdecimal 3 maxCount (Nat.le_refl _), hleading, hvalue, ?_⟩
  rw [(hreads s).count_eq digits hleading, hvalue]
  rfl

end Paging
end TableQuery
