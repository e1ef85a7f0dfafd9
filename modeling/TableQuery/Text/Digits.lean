/-! Naturals and integers as ASCII decimal digits. -/
namespace TableQuery.Text

def digitsOf (n : Nat) : List Char := Nat.toDigits 10 n

def paddedDigits (width n : Nat) : List Char := (digitsOf n).leftpad width '0'

def integerDigits (i : Int) : List Char :=
  if i < 0 then '-' :: digitsOf i.natAbs else digitsOf i.natAbs

def decimal (n : Nat) : String := String.ofList (digitsOf n)

def ofDigits (digits : List Char) : Nat := Nat.ofDigitChars 10 digits 0

def readNatural? (s : List Char) : Option Nat :=
  if s.isEmpty || s.any (!·.isDigit) then none else some (ofDigits s)

def readInteger? : List Char → Option Int
  | '-' :: s => (readNatural? s).map fun n => -(n : Int)
  | '+' :: s => (readNatural? s).map fun n => (n : Int)
  | s => (readNatural? s).map fun n => (n : Int)

end TableQuery.Text
