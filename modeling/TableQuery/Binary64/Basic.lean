/-! Binary floating-point numbers of 64 bits: encoding, exact value and order.
Every finite value is a whole number of units of 2^-1074, the least positive value. -/
namespace TableQuery

/-- A sign and the lower 63 bits of the encoding, which grow with the absolute value. -/
structure Binary64 where
  negative : Bool
  magnitude : Nat
  magnitude_lt : magnitude < 0x8000000000000000
deriving DecidableEq

namespace Binary64

def infinite : Nat := 0x7FF0000000000000

def binade : Nat := 0x10000000000000

def zero (negative : Bool) : Binary64 := ⟨negative, 0, by decide⟩

def infinity (negative : Bool) : Binary64 := ⟨negative, infinite, by decide⟩

def nan (negative : Bool) : Binary64 := ⟨negative, 0x7FF8000000000000, by decide⟩

def bits (x : Binary64) : Nat :=
  if x.negative then 0x8000000000000000 + x.magnitude else x.magnitude

def ofBits (n : Nat) : Binary64 :=
  ⟨n / 0x8000000000000000 % 2 == 1, n % 0x8000000000000000, Nat.mod_lt _ (by decide)⟩

def isNaN (x : Binary64) : Bool := infinite < x.magnitude

def isInfinite (x : Binary64) : Bool := x.magnitude == infinite

def isZero (x : Binary64) : Bool := x.magnitude == 0

/-- The absolute value of a magnitude in units. Infinity comes out as 2^1024 would. -/
def unitsOf (magnitude : Nat) : Nat :=
  if magnitude < binade then magnitude
  else (binade + magnitude % binade) <<< (magnitude / binade - 1)

def one : Nat := Nat.pow 2 1074

def units (x : Binary64) : Int :=
  if x.negative then -(unitsOf x.magnitude : Int) else unitsOf x.magnitude

def compare? (x y : Binary64) : Option Ordering :=
  if x.isNaN || y.isNaN then none else some (compare x.units y.units)

def equals (x y : Binary64) : Bool := !x.isNaN && !y.isNaN && x.units == y.units

def totalCompare (x y : Binary64) : Ordering :=
  match x.isNaN, y.isNaN with
  | true, true => .eq
  | true, false => .gt
  | false, true => .lt
  | false, false => compare x.units y.units

end Binary64
end TableQuery
