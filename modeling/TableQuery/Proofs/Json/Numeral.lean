import Mathlib.Data.List.Basic
import TableQuery.Json.Numeral
import TableQuery.Proofs.Text.Digits

/-! An integer is scanned back from its digits. -/
namespace TableQuery.Json
open TableQuery.Text

def Numeral.ofInteger (i : Int) : Numeral := ⟨decide (i < 0), digitsOf i.natAbs, [], none⟩

def EndsNumeral (rest : List Char) : Prop :=
  ∀ c, rest.head? = some c → c.isDigit = false ∧ c ≠ '.' ∧ c ≠ 'e' ∧ c ≠ 'E'

theorem endsNumeral_nil : EndsNumeral [] := nofun

theorem endsNumeral_cons {c : Char} (h : c.isDigit = false ∧ c ≠ '.' ∧ c ≠ 'e' ∧ c ≠ 'E')
    (rest : List Char) : EndsNumeral (c :: rest) := by
  intro d hd
  cases hd
  exact h

theorem EndsNumeral.endsDigits {rest : List Char} (h : EndsNumeral rest) : EndsDigits rest :=
  fun c hc => (h c hc).1

theorem scanDigits?_append {digits rest : List Char} (hdigits : ∀ c ∈ digits, c.isDigit = true)
    (hne : digits ≠ []) (hrest : EndsDigits rest) :
    scanDigits? (digits ++ rest) = some (digits, rest) := by
  have hdrop : (digits ++ rest).dropWhile Char.isDigit = rest := by
    rw [List.dropWhile_append_of_pos hdigits, hrest.dropWhile_eq_self]
  rw [scanDigits?]
  simp only [hrest.takeWhile_append hdigits, hdrop, List.isEmpty_eq_false_iff.2 hne]
  rfl

theorem scanWhole?_of_head {s : List Char} (h : s.head? ≠ some '0') :
    scanWhole? s = scanDigits? s := by
  rw [scanWhole?]
  intro rest hs
  rw [hs] at h
  exact h rfl

theorem scanWhole?_digitsOf (n : Nat) {rest : List Char} (hrest : EndsDigits rest) :
    scanWhole? (digitsOf n ++ rest) = some (digitsOf n, rest) := by
  cases n with
  | zero =>
    have hnone : rest.head?.any Char.isDigit = false := by
      cases rest with
      | nil => rfl
      | cons c rest => exact hrest c rfl
    change (if rest.head?.any Char.isDigit then none else some (['0'], rest)) = _
    rw [hnone]
    rfl
  | succ n =>
    have hhead : (digitsOf (n + 1) ++ rest).head? ≠ some '0' := by
      rw [List.head?_append_of_ne_nil _ (digitsOf_ne_nil _)]
      exact head?_digitsOf_ne_zero (Nat.succ_pos n)
    rw [scanWhole?_of_head hhead, scanDigits?_append (fun _ => isDigit_of_mem_digitsOf)
      (digitsOf_ne_nil _) hrest]

theorem scanFraction?_of_endsNumeral {rest : List Char} (h : EndsNumeral rest) :
    scanFraction? rest = some ([], rest) := by
  fun_cases scanFraction? rest with
  | case1 s => exact absurd rfl (h '.' rfl).2.1
  | case2 s => rfl

theorem scanExponent?_of_endsNumeral {rest : List Char} (h : EndsNumeral rest) :
    scanExponent? rest = some (none, rest) := by
  cases rest with
  | nil => rfl
  | cons c rest =>
    obtain ⟨-, -, he, hE⟩ := h c rfl
    rw [scanExponent?, if_neg]
    simp [he, hE]

theorem scanNumeral?_of_scanWhole? {s t whole rest : List Char} {negative : Bool}
    (hminus : scanMinus s = (negative, t)) (hwhole : scanWhole? t = some (whole, rest))
    (hrest : EndsNumeral rest) : scanNumeral? s = some (⟨negative, whole, [], none⟩, rest) := by
  rw [scanNumeral?, hminus]
  refine Option.bind_eq_some_iff.2 ⟨_, hwhole, ?_⟩
  refine Option.bind_eq_some_iff.2 ⟨_, scanFraction?_of_endsNumeral hrest, ?_⟩
  exact Option.bind_eq_some_iff.2 ⟨_, scanExponent?_of_endsNumeral hrest, rfl⟩

theorem scanMinus_of_isDigit {s : List Char} (h : ∀ c, s.head? = some c → c.isDigit = true) :
    scanMinus s = (false, s) := by
  rw [scanMinus]
  intro rest hs
  rw [hs] at h
  cases h '-' rfl

theorem scanNumeral?_integerDigits (i : Int) {rest : List Char} (hrest : EndsNumeral rest) :
    scanNumeral? (integerDigits i ++ rest) = some (.ofInteger i, rest) := by
  have hwhole := scanWhole?_digitsOf i.natAbs hrest.endsDigits
  rw [integerDigits, Numeral.ofInteger]
  split
  · next hnegative =>
    rw [decide_eq_true hnegative]
    exact scanNumeral?_of_scanWhole? rfl hwhole hrest
  · next hpositive =>
    have hminus : scanMinus (digitsOf i.natAbs ++ rest) = (false, digitsOf i.natAbs ++ rest) := by
      refine scanMinus_of_isDigit ?_
      intro c hc
      rw [List.head?_append_of_ne_nil _ (digitsOf_ne_nil _)] at hc
      exact isDigit_of_mem_digitsOf (List.mem_of_head? hc)
    rw [decide_eq_false hpositive]
    exact scanNumeral?_of_scanWhole? hminus hwhole hrest

end TableQuery.Json
