import TableQuery.Text.Blank

/-! Cutting a text: at every separator, or at the leftmost place where a pattern matches.
A pattern is a function from the text at a place to what it finds there, if it matches. -/
namespace TableQuery.Text

def pieces (p : Char → Bool) : List Char → List (List Char)
  | [] => [[]]
  | c :: s =>
    if p c then [] :: pieces p s
    else match pieces p s with
      | [] => [[c]]
      | piece :: rest => (c :: piece) :: rest

def terms (s : List Char) : List (List Char) := pieces (· == ',') s

def words (s : List Char) : List (List Char) :=
  (pieces isBlank s).filter fun word => !word.isEmpty

def strip? (same : Char → Char → Bool) : List Char → List Char → Option (List Char)
  | [], s => some s
  | _ :: _, [] => none
  | w :: ws, c :: s => if same w c then strip? same ws s else none

def leftmost {α : Type} (pattern : List Char → Option α) : List Char → Option (List Char × α)
  | [] => (pattern []).map ([], ·)
  | c :: s =>
    match pattern (c :: s) with
    | some found => some ([], found)
    | none => (leftmost pattern s).map fun (before, found) => (c :: before, found)

theorem length_strip {same : Char → Char → Bool} {word s rest : List Char}
    (h : strip? same word s = some rest) : word.length + rest.length = s.length := by
  fun_induction strip? same word s with
  | case1 => simp_all
  | case2 => simp at h
  | case3 w ws c s _ ih =>
    have := ih h
    simp only [List.length_cons]
    omega
  | case4 => simp at h

theorem of_leftmost {α : Type} {pattern : List Char → Option α} {s before : List Char} {found : α}
    (h : leftmost pattern s = some (before, found)) :
    ∃ place, s = before ++ place ∧ pattern place = some found := by
  induction s generalizing before with
  | nil =>
    obtain ⟨a, ha, he⟩ := Option.map_eq_some_iff.1 h
    simp only [Prod.mk.injEq] at he
    obtain ⟨rfl, rfl⟩ := he
    exact ⟨[], rfl, ha⟩
  | cons c s ih =>
    unfold leftmost at h
    split at h
    · next a ha =>
      simp only [Option.some.injEq, Prod.mk.injEq] at h
      obtain ⟨rfl, rfl⟩ := h
      exact ⟨c :: s, rfl, ha⟩
    · obtain ⟨⟨b, a⟩, hs, he⟩ := Option.map_eq_some_iff.1 h
      simp only [Prod.mk.injEq] at he
      obtain ⟨rfl, rfl⟩ := he
      obtain ⟨place, rfl, hp⟩ := ih hs
      exact ⟨place, rfl, hp⟩

def cutAt? (word s : List Char) : Option (List Char × List Char) :=
  leftmost (strip? (· == ·) word) s

def beforeLast? (c : Char) : List Char → Option (List Char)
  | [] => none
  | x :: s =>
    match beforeLast? c s with
    | some before => some (x :: before)
    | none => if x == c then some [] else none

def sameLetter (letter c : Char) : Bool :=
  c.toLower == letter || (letter == 's' && c == 'ſ')

end TableQuery.Text
