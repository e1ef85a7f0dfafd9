import TableQuery.Timestamp.Basic
import TableQuery.Text.Blank
import TableQuery.Text.Digits

/-! Reading a timestamp, within an optional pair of quotes. Four forms are tried in turn: with an
offset behind the time, as in RFC 3339, without an offset, and a date alone. Without an offset a
time is one of UTC. A reader gives what it read and the text after it. -/
namespace TableQuery.Timestamp
open TableQuery.Text

def readDigits? (least most : Nat) (s : List Char) : Option (Nat × List Char) :=
  let digits := (s.take most).takeWhile Char.isDigit
  if digits.length < least then none else some (ofDigits digits, s.drop digits.length)

def readField? (s : List Char) : Option (Nat × List Char) := readDigits? 1 2 (trimStart s)

def readYear? (s : List Char) : Option (Int × List Char) :=
  match trimStart s with
  | '-' :: s => (readDigits? 1 s.length s).map fun (n, s) => (-(n : Int), s)
  | '+' :: s => (readDigits? 1 s.length s).map fun (n, s) => ((n : Int), s)
  | s => (readDigits? 1 4 s).map fun (n, s) => ((n : Int), s)

def expect? (c : Char) : List Char → Option (List Char)
  | x :: s => if x = c then some s else none
  | [] => none

def readDate? (s : List Char) : Option (Date × List Char) := do
  let (year, s) ← readYear? s
  let s ← expect? '-' s
  let (month, s) ← readField? s
  let s ← expect? '-' s
  let (day, s) ← readField? s
  return (⟨year, month, day⟩, s)

def readFraction? : List Char → Option (Nat × List Char)
  | '.' :: s => do
    let (n, rest) ← readDigits? 1 9 s
    -- digits after the ninth are dropped
    return (n * Nat.pow 10 (9 - (s.length - rest.length)), rest.dropWhile Char.isDigit)
  | s => some (0, s)

def readClock? (s : List Char) : Option (Clock × List Char) := do
  let (date, s) ← readDate? s
  let (hour, s) ← readField? (trimStart s)
  let s ← expect? ':' s
  let (minute, s) ← readField? s
  let s ← expect? ':' s
  let (second, s) ← readField? s
  let (fraction, s) ← readFraction? s
  return (⟨date, hour, minute, second, fraction⟩, s)

def readSign? : List Char → Option (Bool × List Char)
  | '+' :: s => some (false, s)
  | '-' :: s => some (true, s)
  -- the minus sign U+2212
  | '−' :: s => some (true, s)
  | _ => none

def readOffset? (separator : List Char → Option (List Char)) (s : List Char) :
    Option (Int × List Char) := do
  let (west, s) ← readSign? s
  let (hours, s) ← readDigits? 2 2 s
  let s ← separator s
  let (minutes, s) ← readDigits? 2 2 s
  guard (hours < 24 ∧ minutes < 60)
  let offset : Int := 3600 * hours + 60 * minutes
  return (if west then -offset else offset, s)

def skipColons (s : List Char) : List Char := s.dropWhile fun c => c == ':' || isBlank c

def readWithOffset? (s : List Char) : Option Timestamp := do
  let (clock, s) ← readClock? s
  let (offset, s) ← readOffset? (fun s => some (skipColons s)) (trimStart s)
  guard s.isEmpty
  ofClock? clock offset

def readWithoutOffset? (s : List Char) : Option Timestamp := do
  let (clock, s) ← readClock? s
  guard s.isEmpty
  ofClock? clock 0

def readMidnight? (s : List Char) : Option Timestamp := do
  let (date, s) ← readDate? s
  guard s.isEmpty
  ofClock? ⟨date, 0, 0, 0, 0⟩ 0

def readDateTimeMark? : List Char → Option (List Char)
  | c :: s => if c == 'T' || c == 't' || c == ' ' then some s else none
  | [] => none

def readZone? : List Char → Option (Int × List Char)
  | 'Z' :: s => some (0, s)
  | 'z' :: s => some (0, s)
  | s => readOffset? (expect? ':') s

def readRfc3339? (s : List Char) : Option Timestamp := do
  let (year, s) ← readDigits? 4 4 s
  let s ← expect? '-' s
  let (month, s) ← readDigits? 2 2 s
  let s ← expect? '-' s
  let (day, s) ← readDigits? 2 2 s
  let s ← readDateTimeMark? s
  let (hour, s) ← readDigits? 2 2 s
  let s ← expect? ':' s
  let (minute, s) ← readDigits? 2 2 s
  let s ← expect? ':' s
  let (second, s) ← readDigits? 2 2 s
  let (fraction, s) ← readFraction? s
  let (offset, s) ← readZone? s
  guard s.isEmpty
  ofClock? ⟨⟨year, month, day⟩, hour, minute, second, fraction⟩ offset

def unquote (s : List Char) : List Char :=
  match s with
  | quote :: rest =>
    if (quote == '\'' || quote == '"') && rest.getLast? == some quote then rest.dropLast else s
  | [] => s

def read? (s : List Char) : Option Timestamp :=
  let s := unquote (trim s)
  readWithOffset? s <|> readRfc3339? s <|> readWithoutOffset? s <|> readMidnight? s

end TableQuery.Timestamp
