import TableQuery.Json.Numeral
import TableQuery.Json.Quoted

/-! The tokens of a JSON text. -/
namespace TableQuery.Json

inductive Token where
  | openArray
  | closeArray
  | openObject
  | closeObject
  | comma
  | colon
  | null
  | bool (b : Bool)
  | number (n : Numeral)
  | string (parts : List StringPart)
  -- no token begins here, and the text after this place is not looked at
  | fault
deriving DecidableEq

namespace Token

def isSpace (c : Char) : Bool := c == ' ' || c == '\n' || c == '\r' || c == '\t'

def scan (c : Char) (s : List Char) : Token × List Char :=
  match c, s with
  | '[', s => (openArray, s)
  | ']', s => (closeArray, s)
  | '{', s => (openObject, s)
  | '}', s => (closeObject, s)
  | ',', s => (comma, s)
  | ':', s => (colon, s)
  | 'n', 'u' :: 'l' :: 'l' :: s => (null, s)
  | 't', 'r' :: 'u' :: 'e' :: s => (bool true, s)
  | 'f', 'a' :: 'l' :: 's' :: 'e' :: s => (bool false, s)
  | '"', s =>
    match scanString? s with
    | some (parts, s) => (string parts, s)
    | none => (fault, [])
  | c, s =>
    match scanNumeral? (c :: s) with
    | some (n, s) => (number n, s)
    | none => (fault, [])

theorem length_scan (c : Char) (s : List Char) : (scan c s).2.length ≤ s.length := by
  unfold scan
  split <;> try (simp; done)
  · simp only [List.length_cons]; omega
  · simp only [List.length_cons]; omega
  · simp only [List.length_cons]; omega
  · split
    · next h => exact Nat.le_of_lt (length_scanString h)
    · simp
  · split
    · next h => exact Nat.le_of_lt_succ (by simpa using length_scanNumeral h)
    · simp

def all : List Char → List Token
  | [] => []
  | c :: s =>
    if isSpace c then all s
    else
      have := length_scan c s
      (scan c s).1 :: all (scan c s).2
termination_by s => s.length

end Token
end TableQuery.Json
