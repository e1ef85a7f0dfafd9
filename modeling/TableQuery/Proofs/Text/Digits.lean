import Mathlib.Algebra.Order.Ring.Nat
import TableQuery.Proofs.Paging

/-! The digits of a natural: how many there are, what the first of them amount to, and that they
are read as the natural. -/
namespace TableQuery.Text

theorem ofDigits_append (s t : List Char) :
    ofDigits (s ++ t) = 10 ^ t.length * ofDigits s + ofDigits t := by
  rw [ofDigits, Nat.ofDigitChars_append, Nat.ofDigitChars_eq_ofDigitChars_zero]
  rfl

theorem ofDigits_replicate_zero (k : Nat) : ofDigits (List.replicate k '0') = 0 := by
  rw [ofDigits, Nat.ofDigitChars_replicate_zero, Nat.mul_zero]

theorem ofDigits_lt {s : List Char} (h : ∀ c ∈ s, c.isDigit = true) :
    ofDigits s < 10 ^ s.length := by
  induction s with
  | nil => decide
  | cons c s ih =>
    obtain ⟨hc, hs⟩ := List.forall_mem_cons.1 h
    have hdigit : ofDigits [c] ≤ 9 := by
      rw [Char.isDigit, Bool.and_eq_true, decide_eq_true_eq, decide_eq_true_eq] at hc
      have hle : c.toNat ≤ 57 := hc.2
      have hzero : '0'.toNat = 48 := rfl
      rw [ofDigits, Nat.ofDigitChars_cons, Nat.ofDigitChars_nil]
      omega
    have happend := ofDigits_append [c] s
    rw [List.singleton_append] at happend
    have hmul := Nat.mul_le_mul_left (10 ^ s.length) hdigit
    have hrest := ih hs
    rw [happend, List.length_cons, Nat.pow_succ]
    omega

theorem lt_pow_length_digitsOf (n : Nat) : n < 10 ^ (digitsOf n).length :=
  (Nat.length_toDigits_le_iff (by decide) Nat.length_toDigits_pos).1 (Nat.le_refl _)

theorem pow_length_digitsOf_le {n : Nat} (h : 0 < n) : 10 ^ ((digitsOf n).length - 1) ≤ n := by
  rcases Nat.eq_zero_or_pos ((digitsOf n).length - 1) with hone | hmore
  · rw [hone]
    exact h
  · refine Nat.not_lt.1 fun hlt => ?_
    have hle : (digitsOf n).length ≤ (digitsOf n).length - 1 :=
      (Nat.length_toDigits_le_iff (by decide) hmore).2 hlt
    omega

/-- Leaving out digits at the end is dividing by a power of ten. -/
theorem ofDigits_take_digitsOf (n k : Nat) :
    ofDigits ((digitsOf n).take k) = n / 10 ^ ((digitsOf n).length - k) := by
  have hsplit := ofDigits_append ((digitsOf n).take k) ((digitsOf n).drop k)
  have hrest : ofDigits ((digitsOf n).drop k) < 10 ^ ((digitsOf n).drop k).length :=
    ofDigits_lt fun c hc => isDigit_of_mem_digitsOf (List.mem_of_mem_drop hc)
  rw [List.length_drop] at hsplit hrest
  rw [List.take_append_drop, ofDigits_digitsOf] at hsplit
  rw [eq_comm, Nat.div_eq_of_lt_le]
  · rw [Nat.mul_comm]
    omega
  · rw [Nat.succ_mul, Nat.mul_comm]
    omega

theorem isDigit_of_mem_paddedDigits {width n : Nat} {c : Char} (h : c ∈ paddedDigits width n) :
    c.isDigit = true := by
  rw [paddedDigits, List.leftpad, List.mem_append, List.mem_replicate] at h
  rcases h with ⟨-, rfl⟩ | h
  · rfl
  · exact isDigit_of_mem_digitsOf h

theorem ofDigits_paddedDigits (width n : Nat) : ofDigits (paddedDigits width n) = n := by
  rw [paddedDigits, List.leftpad, ofDigits_append, ofDigits_replicate_zero, ofDigits_digitsOf,
    Nat.mul_zero, Nat.zero_add]

theorem length_paddedDigits (width n : Nat) :
    (paddedDigits width n).length = max width (digitsOf n).length := by
  rw [paddedDigits, List.leftpad, List.length_append, List.length_replicate]
  omega

theorem length_paddedDigits_of_lt {width n : Nat} (hwidth : 0 < width) (h : n < 10 ^ width) :
    (paddedDigits width n).length = width := by
  have hdigits : (digitsOf n).length ≤ width :=
    (Nat.length_toDigits_le_iff (by decide) hwidth).2 h
  rw [length_paddedDigits, Nat.max_eq_left hdigits]

/-- A positive number has no zero in front. -/
theorem head?_digitsOf_ne_zero {n : Nat} (h : 0 < n) : (digitsOf n).head? ≠ some '0' := by
  intro hhead
  obtain ⟨rest, hrest⟩ := List.head?_eq_some_iff.1 hhead
  have hdigits : ∀ c ∈ rest, c.isDigit = true := by
    intro c hc
    refine isDigit_of_mem_digitsOf (n := n) ?_
    rw [hrest]
    exact List.mem_cons_of_mem _ hc
  have hlt := ofDigits_lt hdigits
  have hle := pow_length_digitsOf_le h
  have hvalue := ofDigits_append ['0'] rest
  have hzero : ofDigits ['0'] = 0 := rfl
  rw [List.singleton_append, ← hrest, ofDigits_digitsOf, hzero] at hvalue
  rw [hrest, List.length_cons, Nat.add_sub_cancel] at hle
  omega

theorem eq_or_isDigit_of_mem_integerDigits {i : Int} {c : Char} (h : c ∈ integerDigits i) :
    c = '-' ∨ c.isDigit = true := by
  rw [integerDigits] at h
  split at h
  · cases h with
    | head => exact .inl rfl
    | tail _ hc => exact .inr (isDigit_of_mem_digitsOf hc)
  · exact .inr (isDigit_of_mem_digitsOf h)

theorem integerDigits_ne_nil (i : Int) : integerDigits i ≠ [] := by
  rw [integerDigits]
  split
  · nofun
  · exact digitsOf_ne_nil _

theorem readNatural?_digitsOf (n : Nat) : readNatural? (digitsOf n) = some n := by
  have hall : (digitsOf n).any (!·.isDigit) = false := by
    rw [List.any_eq_false]
    intro c hc
    simp [isDigit_of_mem_digitsOf hc]
  rw [readNatural?, hall, List.isEmpty_eq_false_iff.2 (digitsOf_ne_nil n), ofDigits_digitsOf]
  rfl

theorem readInteger?_of_natural {s : List Char} {n : Nat} (hdigit : ∀ c ∈ s, c.isDigit = true)
    (h : readNatural? s = some n) : readInteger? s = some (n : Int) := by
  fun_cases readInteger? s with
  | case1 s => exact absurd (hdigit '-' List.mem_cons_self) (by decide)
  | case2 s => exact absurd (hdigit '+' List.mem_cons_self) (by decide)
  | case3 s =>
    rw [h]
    rfl

theorem readInteger?_integerDigits (i : Int) : readInteger? (integerDigits i) = some i := by
  rw [integerDigits]
  split
  · next hnegative =>
    have hminus : -(i.natAbs : Int) = i := by omega
    rw [readInteger?, readNatural?_digitsOf]
    exact congrArg some hminus
  · next hpositive =>
    rw [readInteger?_of_natural (fun _ => isDigit_of_mem_digitsOf) (readNatural?_digitsOf _),
      Int.natAbs_of_nonneg (Int.not_lt.1 hpositive)]

def EndsDigits (rest : List Char) : Prop := ∀ c, rest.head? = some c → c.isDigit = false

theorem endsDigits_cons {c : Char} (h : c.isDigit = false) (rest : List Char) :
    EndsDigits (c :: rest) := by
  intro d hd
  cases hd
  exact h

theorem EndsDigits.takeWhile_eq_nil {rest : List Char} (h : EndsDigits rest) :
    rest.takeWhile Char.isDigit = [] := by
  cases rest with
  | nil => rfl
  | cons c rest => exact List.takeWhile_cons_of_neg (by simp [h c rfl])

theorem EndsDigits.takeWhile_append {digits rest : List Char} (h : EndsDigits rest)
    (hdigits : ∀ c ∈ digits, c.isDigit = true) :
    (digits ++ rest).takeWhile Char.isDigit = digits := by
  rw [List.takeWhile_append_of_pos hdigits, h.takeWhile_eq_nil, List.append_nil]

theorem endsDigits_dropWhile (s : List Char) : EndsDigits (s.dropWhile Char.isDigit) := by
  intro c hc
  have hhead := List.head?_dropWhile_not Char.isDigit s
  rw [hc] at hhead
  exact hhead

theorem EndsDigits.dropWhile_eq_self {rest : List Char} (h : EndsDigits rest) :
    rest.dropWhile Char.isDigit = rest := by
  cases rest with
  | nil => rfl
  | cons c rest => exact List.dropWhile_cons_of_neg (by simp [h c rfl])

theorem EndsDigits.take {rest : List Char} (h : EndsDigits rest) (k : Nat) :
    EndsDigits (rest.take k) := by
  intro c hc
  rw [List.head?_take] at hc
  split at hc
  · cases hc
  · exact h c hc

end TableQuery.Text
