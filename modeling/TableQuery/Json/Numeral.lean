/-! The grammar of JSON numbers. A scanner gives what it read and the text after it. -/
namespace TableQuery.Json

structure Numeral where
  negative : Bool
  whole : List Char
  fraction : List Char
  exponent : Option (Bool × List Char)
deriving DecidableEq

def scanDigits? (s : List Char) : Option (List Char × List Char) :=
  let digits := s.takeWhile Char.isDigit
  if digits.isEmpty then none else some (digits, s.dropWhile Char.isDigit)

def scanMinus : List Char → Bool × List Char
  | '-' :: s => (true, s)
  | s => (false, s)

def scanSign : List Char → Bool × List Char
  | '-' :: s => (true, s)
  | '+' :: s => (false, s)
  | s => (false, s)

def scanWhole? : List Char → Option (List Char × List Char)
  | '0' :: s => if s.head?.any Char.isDigit then none else some (['0'], s)
  | s => scanDigits? s

def scanFraction? : List Char → Option (List Char × List Char)
  | '.' :: s => scanDigits? s
  | s => some ([], s)

def scanExponent? : List Char → Option (Option (Bool × List Char) × List Char)
  | [] => some (none, [])
  | c :: s =>
    if c == 'e' || c == 'E' then
      (scanDigits? (scanSign s).2).map fun (digits, rest) => (some ((scanSign s).1, digits), rest)
    else some (none, c :: s)

def scanNumeral? (s : List Char) : Option (Numeral × List Char) := do
  let (negative, s) := scanMinus s
  let (whole, s) ← scanWhole? s
  let (fraction, s) ← scanFraction? s
  let (exponent, s) ← scanExponent? s
  return (⟨negative, whole, fraction, exponent⟩, s)

theorem length_scanMinus (s : List Char) : (scanMinus s).2.length ≤ s.length := by
  unfold scanMinus
  split <;> simp

theorem length_scanSign (s : List Char) : (scanSign s).2.length ≤ s.length := by
  unfold scanSign
  split <;> simp

theorem length_scanDigits {s digits rest : List Char} (h : scanDigits? s = some (digits, rest)) :
    rest.length < s.length := by
  simp only [scanDigits?, Option.ite_none_left_eq_some, Option.some.injEq, Prod.mk.injEq] at h
  obtain ⟨hne, rfl, rfl⟩ := h
  have hs := congrArg List.length (List.takeWhile_append_dropWhile (p := Char.isDigit) (l := s))
  have hp : 0 < (s.takeWhile Char.isDigit).length := by
    rw [List.length_pos_iff]
    simpa using hne
  rw [List.length_append] at hs
  omega

theorem length_scanWhole {s digits rest : List Char} (h : scanWhole? s = some (digits, rest)) :
    rest.length < s.length := by
  unfold scanWhole? at h
  split at h
  · simp only [Option.ite_none_left_eq_some, Option.some.injEq, Prod.mk.injEq] at h
    obtain ⟨-, -, rfl⟩ := h
    simp
  · exact length_scanDigits h

theorem length_scanFraction {s digits rest : List Char}
    (h : scanFraction? s = some (digits, rest)) : rest.length ≤ s.length := by
  unfold scanFraction? at h
  split at h
  · have := length_scanDigits h
    simp only [List.length_cons]
    omega
  · simp only [Option.some.injEq, Prod.mk.injEq] at h
    simp [h.2]

theorem length_scanExponent {s rest : List Char} {e : Option (Bool × List Char)}
    (h : scanExponent? s = some (e, rest)) : rest.length ≤ s.length := by
  unfold scanExponent? at h
  split at h
  · simp_all
  · next c s =>
    split at h
    · obtain ⟨⟨digits, r⟩, hd, he⟩ := Option.map_eq_some_iff.1 h
      simp only [Prod.mk.injEq] at he
      obtain ⟨-, rfl⟩ := he
      have hl := length_scanDigits hd
      have hs := length_scanSign s
      simp only [List.length_cons]
      omega
    · simp only [Option.some.injEq, Prod.mk.injEq] at h
      simp [← h.2]

theorem length_scanNumeral {s rest : List Char} {n : Numeral}
    (h : scanNumeral? s = some (n, rest)) : rest.length < s.length := by
  unfold scanNumeral? at h
  simp only [Option.bind_eq_bind, Option.bind_eq_some_iff, Option.pure_def, Option.some.injEq,
    Prod.mk.injEq, Prod.exists] at h
  obtain ⟨whole, s1, h1, fraction, s2, h2, e, s3, h3, -, rfl⟩ := h
  have l1 := length_scanWhole h1
  have l2 := length_scanFraction h2
  have l3 := length_scanExponent h3
  have hs := length_scanMinus s
  omega

end TableQuery.Json
