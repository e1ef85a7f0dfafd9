import TableQuery.Binary64.Basic

/-! The nearest representable value of a quotient, and the arithmetic that rests on it.
A tie goes to the even neighbour. -/
namespace TableQuery.Binary64

def roundQuotient (n d : Nat) : Nat :=
  let q := n / d
  let r := n % d
  if 2 * r < d then q else if d < 2 * r then q + 1 else q + q % 2

/-- The magnitude nearest to `n / d` units. A value keeps 53 bits, and more than one
unit apart the representable values are the multiples of a power of two. -/
def nearest (n d : Nat) : Nat :=
  let q := n / d
  let shift := if q < 2 * binade then 0 else q.log2 - 52
  min (roundQuotient n (d <<< shift) + shift * binade) infinite

def nearestSigned (negative : Bool) (n d : Nat) : Binary64 :=
  ⟨negative, nearest n d, Nat.lt_of_le_of_lt (Nat.min_le_right _ _) (by decide)⟩

def ofQuotient (negative : Bool) (n d : Nat) : Binary64 := nearestSigned negative (n * one) d

def ofInteger (i : Int) : Binary64 := ofQuotient (i < 0) i.natAbs 1

def ofDecimal (negative : Bool) (n : Nat) (e : Int) : Binary64 :=
  let length := (Nat.toDigits 10 n).length
  if n = 0 then zero negative
  -- far outside the range the powers of ten are not computed
  else if 400 < length + e then infinity negative
  else if length + e < -400 then zero negative
  else if 0 ≤ e then ofQuotient negative (n * Nat.pow 10 e.toNat) 1
  else ofQuotient negative n (Nat.pow 10 e.natAbs)

/-- A NaN operand is the result, the first one if there are two. Infinities of opposite
signs have a negative NaN as their sum, and a sum that cancels is positive. -/
def add (x y : Binary64) : Binary64 :=
  if x.isNaN then x
  else if y.isNaN then y
  else if x.isInfinite then if y.isInfinite && x.negative != y.negative then nan true else x
  else if y.isInfinite then y
  else
    let sum := x.units + y.units
    if sum = 0 then zero (x.negative && y.negative)
    else nearestSigned (sum < 0) sum.natAbs 1

def scaleUp (x : Binary64) (factor : Binary64) : Binary64 :=
  ofQuotient x.negative (unitsOf x.magnitude * unitsOf factor.magnitude) (one * one)

def scaleDown (x : Binary64) (divisor : Binary64) : Binary64 :=
  ofQuotient x.negative (unitsOf x.magnitude) (unitsOf divisor.magnitude)

end TableQuery.Binary64
