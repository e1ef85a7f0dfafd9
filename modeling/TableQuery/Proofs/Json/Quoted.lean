import TableQuery.Json.Quoted

/-! A string is read back from between its quotes. -/
namespace TableQuery.Json

def part (c : Char) : StringPart :=
  if c.toNat < 32 ∧ c ∉ ['\n', '\r', '\t', '\x08', '\x0C'] then .code c.toNat else .plain c

theorem hexValue?_hexDigit {n : Nat} (h : n < 16) : hexValue? (hexDigit n) = some n := by
  decide +revert

theorem code?_hexDigit {n : Nat} (h : n < 256) :
    code? '0' '0' (hexDigit (n / 16)) (hexDigit (n % 16)) = some n := by
  have hzero : hexValue? '0' = some 0 := rfl
  rw [code?, hzero, hexValue?_hexDigit (by omega), hexValue?_hexDigit (by omega)]
  refine congrArg some ?_
  omega

theorem scanString?_letter {letter c : Char} (hcode : letter ≠ 'u')
    (h : unescape? letter = some c) (s : List Char) :
    scanString? ('\\' :: letter :: s) =
      (scanString? s).map fun found => (.plain c :: found.1, found.2) := by
  rw [scanString?, h]
  · cases scanString? s <;> rfl
  · intro _ _ _ _ _ he
    exact absurd he hcode

theorem scanString?_code {a b c d : Char} {n : Nat} (h : code? a b c d = some n)
    (s : List Char) :
    scanString? ('\\' :: 'u' :: a :: b :: c :: d :: s) =
      (scanString? s).map fun found => (.code n :: found.1, found.2) := by
  rw [scanString?, h]
  cases scanString? s <;> rfl

theorem scanString?_plain {c : Char} (hquote : c ≠ '"') (hescape : c ≠ '\\')
    (hcontrol : ¬ c.toNat < 32) (s : List Char) :
    scanString? (c :: s) = (scanString? s).map fun found => (.plain c :: found.1, found.2) := by
  rw [scanString?, if_neg hcontrol]
  · cases scanString? s <;> rfl
  · exact hquote
  · intro _ _ _ _ _ he
    exact absurd he hescape
  · intro _ _ he
    exact absurd he hescape

theorem scanString?_escape (c : Char) (s : List Char) :
    scanString? (escape c ++ s) = (scanString? s).map fun found => (part c :: found.1, found.2) := by
  fun_cases escape c with
  | case1 h =>
    subst h
    exact scanString?_letter (by decide : '"' ≠ 'u') rfl s
  | case2 _ h =>
    subst h
    exact scanString?_letter (by decide : '\\' ≠ 'u') rfl s
  | case3 _ _ h =>
    subst h
    exact scanString?_letter (by decide : 'n' ≠ 'u') rfl s
  | case4 _ _ _ h =>
    subst h
    exact scanString?_letter (by decide : 'r' ≠ 'u') rfl s
  | case5 _ _ _ _ h =>
    subst h
    exact scanString?_letter (by decide : 't' ≠ 'u') rfl s
  | case6 _ _ _ _ _ h =>
    obtain rfl : c = '\x08' := Char.toNat_inj.1 h
    exact scanString?_letter (by decide : 'b' ≠ 'u') rfl s
  | case7 _ _ _ _ _ _ h =>
    obtain rfl : c = '\x0C' := Char.toNat_inj.1 h
    exact scanString?_letter (by decide : 'f' ≠ 'u') rfl s
  | case8 _ _ hn hr ht hb hf hcontrol =>
    have hpart : part c = .code c.toNat := by
      refine if_pos ⟨hcontrol, ?_⟩
      simp only [List.mem_cons, List.not_mem_nil, or_false, not_or]
      exact ⟨hn, hr, ht, fun h => hb (h ▸ rfl), fun h => hf (h ▸ rfl)⟩
    rw [hpart]
    exact scanString?_code (code?_hexDigit (by omega)) s
  | case9 hquote hescape _ _ _ _ _ hcontrol =>
    have hpart : part c = .plain c := if_neg fun h => hcontrol h.1
    rw [hpart]
    exact scanString?_plain hquote hescape hcontrol s

theorem scanString?_flatMap (s rest : List Char) :
    scanString? (s.flatMap escape ++ '"' :: rest) = some (s.map part, rest) := by
  induction s with
  | nil => rfl
  | cons c s ih =>
    rw [List.flatMap_cons, List.append_assoc, scanString?_escape, ih]
    rfl

theorem decode?_part (c : Char) (parts : List StringPart) :
    decode? (part c :: parts) = (decode? parts).map (c :: ·) := by
  rw [part]
  split
  · next h =>
    have hrange : c.toNat < 0xD800 ∨ 0xDFFF < c.toNat := by omega
    rw [decode?.eq_def]
    dsimp only
    rw [if_pos hrange, Char.ofNat_toNat]
  · rw [decode?]

theorem decode?_map_part (s : List Char) : decode? (s.map part) = some s := by
  induction s with
  | nil => rfl
  | cons c s ih =>
    rw [List.map_cons, decode?_part, ih]
    rfl

end TableQuery.Json
