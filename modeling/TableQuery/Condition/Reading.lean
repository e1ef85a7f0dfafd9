import TableQuery.Condition.Basic
import TableQuery.QueryError

/-! Reading a condition. A group in parentheses is taken out of its text and joined with what
is left by the connective at the start or the end of that. Without a group, the leftmost AND
cuts the text, or else the leftmost OR, or else it is a comparison. -/
namespace TableQuery
open TableQuery.Text

namespace Connective

def word : Connective → List Char
  | and => "and".toList
  | or => "or".toList

def blank? : List Char → Option (List Char)
  | c :: s => if isBlank c then some s else none
  | [] => none

def followed? (k : Connective) (s : List Char) : Option (List Char) :=
  (strip? sameLetter k.word s).bind blank?

def cut? (k : Connective) (s : List Char) : Option (List Char × List Char) :=
  leftmost (fun s => (blank? s).bind k.followed?) s

def leading? (k : Connective) (s : List Char) : Option (List Char) := k.followed? (trimStart s)

def ending? (k : Connective) (s : List Char) : Option Unit :=
  ((blank? s).bind (strip? sameLetter k.word)).bind fun rest => guard (rest.all isBlank)

def trailing? (k : Connective) (s : List Char) : Option (List Char) :=
  (leftmost k.ending? s).map Prod.fst

theorem length_blank {s rest : List Char} (h : blank? s = some rest) :
    rest.length + 1 = s.length := by
  cases s with
  | nil => simp [blank?] at h
  | cons c s => simp_all [blank?]

theorem length_followed {k : Connective} {s rest : List Char} (h : k.followed? s = some rest) :
    rest.length < s.length := by
  obtain ⟨t, ht, hr⟩ := Option.bind_eq_some_iff.1 h
  have := length_strip ht
  have := length_blank hr
  omega

theorem length_cut {k : Connective} {s left right : List Char}
    (h : k.cut? s = some (left, right)) : left.length < s.length ∧ right.length < s.length := by
  obtain ⟨place, rfl, hp⟩ := of_leftmost h
  obtain ⟨t, ht, hr⟩ := Option.bind_eq_some_iff.1 hp
  have := length_blank ht
  have := length_followed hr
  simp only [List.length_append]
  omega

theorem length_leading {k : Connective} {s rest : List Char} (h : k.leading? s = some rest) :
    rest.length < s.length :=
  Nat.lt_of_lt_of_le (length_followed h) (List.dropWhile_sublist _).length_le

theorem length_trailing {k : Connective} {s left : List Char} (h : k.trailing? s = some left) :
    left.length ≤ s.length := by
  obtain ⟨⟨before, u⟩, hb, rfl⟩ := Option.map_eq_some_iff.1 h
  obtain ⟨place, rfl, -⟩ := of_leftmost hb
  simp

end Connective

def Comparison.read? (s : List Char) : Option Comparison := do
  let r ← Relation.scan? s
  let (column, literal) ← cutAt? r.symbol.toList s
  return ⟨String.ofList (trim column), r, String.ofList (trim literal), none⟩

namespace Condition

structure Grouped where
  before : List Char
  inner : List Char
  after : List Char

def isParenthesis (c : Char) : Bool := c == '(' || c == ')'

/-- A group reaches from the first parenthesis, which must open, to the first that closes,
and no other may open in it. -/
def firstGroup (s : List Char) : Except ParenthesisFault (Option Grouped) :=
  match s.dropWhile fun c => !isParenthesis c with
  | [] => .ok none
  | c :: rest =>
    if c = ')' then .error .unmatched
    else match rest.dropWhile (· != ')') with
      | [] => .error .unclosed
      | _ :: after =>
        let inner := rest.takeWhile (· != ')')
        if '(' ∈ inner then .error .nested
        else .ok (some ⟨s.takeWhile fun c => !isParenthesis c, inner, after⟩)

inductive Shape where
  | comparison
  | group (inner : List Char)
  | joined (k : Connective) (left right : List Char)

/-- A connective is looked for at the start of what is left, then at its end. Without one the
group stands alone, and what is left counts for nothing. -/
def Grouped.shape (g : Grouped) : Shape :=
  let rest := g.before ++ g.after
  match Connective.leading? .and rest, Connective.leading? .or rest with
  | some right, _ => .joined .and g.inner right
  | none, some right => .joined .or g.inner right
  | none, none =>
    match Connective.trailing? .and rest, Connective.trailing? .or rest with
    | some left, _ => .joined .and left g.inner
    | none, some left => .joined .or left g.inner
    | none, none => .group g.inner

def flatShape (s : List Char) : Shape :=
  match Connective.cut? .and s, Connective.cut? .or s with
  | some (left, right), _ => .joined .and left right
  | none, some (left, right) => .joined .or left right
  | none, none => .comparison

def shape (s : List Char) : Except ParenthesisFault Shape :=
  (firstGroup s).map fun
    | some g => g.shape
    | none => flatShape s

def Shape.parts : Shape → List (List Char)
  | comparison => []
  | group inner => [inner]
  | joined _ left right => [left, right]

theorem length_firstGroup {s : List Char} {g : Grouped} (h : firstGroup s = .ok (some g)) :
    g.before.length + g.inner.length + g.after.length < s.length := by
  have hs := congrArg List.length
    (List.takeWhile_append_dropWhile (p := fun c => !isParenthesis c) (l := s))
  unfold firstGroup at h
  split at h
  · simp at h
  · next c rest hd =>
    rw [hd] at hs
    have hr := congrArg List.length
      (List.takeWhile_append_dropWhile (p := fun c => c != ')') (l := rest))
    split at h
    · simp at h
    · split at h
      · simp at h
      · next d after ha =>
        rw [ha] at hr
        dsimp only at h
        split at h
        · simp at h
        · simp only [Except.ok.injEq, Option.some.injEq] at h
          subst h
          simp only [List.length_append, List.length_cons] at hs hr ⊢
          omega

theorem length_shape_group {g : Grouped} {part : List Char} (h : part ∈ g.shape.parts) :
    part.length ≤ g.before.length + g.inner.length + g.after.length := by
  have hrest : (g.before ++ g.after).length = g.before.length + g.after.length :=
    List.length_append
  unfold Grouped.shape at h
  dsimp only at h
  split at h
  · next hl =>
    have := Connective.length_leading hl
    simp only [Shape.parts, List.mem_cons, List.not_mem_nil, or_false] at h
    rcases h with rfl | rfl <;> omega
  · next hl =>
    have := Connective.length_leading hl
    simp only [Shape.parts, List.mem_cons, List.not_mem_nil, or_false] at h
    rcases h with rfl | rfl <;> omega
  · split at h
    · next hl =>
      have := Connective.length_trailing hl
      simp only [Shape.parts, List.mem_cons, List.not_mem_nil, or_false] at h
      rcases h with rfl | rfl <;> omega
    · next hl =>
      have := Connective.length_trailing hl
      simp only [Shape.parts, List.mem_cons, List.not_mem_nil, or_false] at h
      rcases h with rfl | rfl <;> omega
    · simp only [Shape.parts, List.mem_cons, List.not_mem_nil, or_false] at h
      subst h
      omega

theorem length_flatShape {s part : List Char} (h : part ∈ (flatShape s).parts) :
    part.length < s.length := by
  unfold flatShape at h
  split at h
  · next hc =>
    have := Connective.length_cut hc
    simp only [Shape.parts, List.mem_cons, List.not_mem_nil, or_false] at h
    rcases h with rfl | rfl <;> omega
  · next hc =>
    have := Connective.length_cut hc
    simp only [Shape.parts, List.mem_cons, List.not_mem_nil, or_false] at h
    rcases h with rfl | rfl <;> omega
  · simp [Shape.parts] at h

theorem length_shape {s part : List Char} {sh : Shape} (h : shape s = .ok sh)
    (hp : part ∈ sh.parts) : part.length < s.length := by
  unfold shape at h
  match hg : firstGroup s with
  | .error _ => simp [hg, Except.map] at h
  | .ok none =>
    simp only [hg, Except.map, Except.ok.injEq] at h
    exact length_flatShape (h ▸ hp)
  | .ok (some g) =>
    simp only [hg, Except.map, Except.ok.injEq] at h
    exact Nat.lt_of_le_of_lt (length_shape_group (h ▸ hp)) (length_firstGroup hg)

def read (s : List Char) : Except QueryError Condition :=
  match h : shape s with
  | .error fault => .error (.parentheses (String.ofList s) fault.reason)
  | .ok .comparison =>
    match Comparison.read? s with
    | some c => .ok (leaf c)
    | none => .error (.noOperator (String.ofList s))
  | .ok (.group inner) =>
    have : inner.length < s.length := length_shape h (by simp [Shape.parts])
    read inner
  | .ok (.joined k left right) =>
    have : left.length < s.length := length_shape h (by simp [Shape.parts])
    have : right.length < s.length := length_shape h (by simp [Shape.parts])
    -- the error of the left side is the one that shows
    do return join k (← read left) (← read right)
termination_by s.length

def ofText (text : String) : Except QueryError (Option Condition) :=
  if (trim text.toList).isEmpty then .ok none else (read text.toList).map some

end Condition
end TableQuery
