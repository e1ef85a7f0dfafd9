import TableQuery.Binary64.Layout
import TableQuery.Binary64.Rounding
import TableQuery.Json.Numeral
import TableQuery.Text.Digits

/-! The number that a JSON numeral stands for, and its text again. An integer of 64 bits,
signed or not, stays one; anything else becomes a float, read with one rounding of its
first digits and one of the power of ten. -/
namespace TableQuery.Json
open TableQuery.Text

inductive Number where
  | integer (i : Int)
  | float (x : Binary64)
deriving DecidableEq

namespace Number

def limit : Nat := 0x10000000000000000

structure Significand where
  value : Nat
  exponent : Int
  -- once a digit has not fitted in 64 bits, none behind it counts
  full : Bool

def Significand.addWhole (s : Significand) (digit : Char) : Significand :=
  let next := 10 * s.value + ofDigits [digit]
  if s.full || limit ≤ next then { s with exponent := s.exponent + 1, full := true }
  else { s with value := next }

def Significand.addFraction (s : Significand) (digit : Char) : Significand :=
  let next := 10 * s.value + ofDigits [digit]
  if s.full || limit ≤ next then { s with full := true }
  else { s with value := next, exponent := s.exponent - 1 }

def maxPower : Nat := 308

def powerOfTen (k : Nat) : Binary64 := Binary64.ofQuotient false (Nat.pow 10 k) 1

def divideByPower (x : Binary64) (k : Nat) : Binary64 :=
  if k ≤ maxPower then x.scaleDown (powerOfTen k)
  else if x.isZero then x
  else divideByPower (x.scaleDown (powerOfTen maxPower)) (k - maxPower)
termination_by k
decreasing_by have : 0 < maxPower := by decide
              omega

def scale? (negative : Bool) (significand : Nat) (exponent : Int) : Option Binary64 :=
  let x := Binary64.ofQuotient negative significand 1
  if exponent < 0 then some (divideByPower x exponent.natAbs)
  else if exponent ≤ maxPower then
    let y := x.scaleUp (powerOfTen exponent.toNat)
    if y.isInfinite then none else some y
  else if x.isZero then some x
  else none

def maxExponent : Nat := 0x7FFFFFFF

def floatOf? (n : Numeral) : Option Binary64 :=
  let whole := n.whole.foldl Significand.addWhole ⟨0, 0, false⟩
  let s := n.fraction.foldl Significand.addFraction { whole with full := false }
  match n.exponent with
  | none => scale? n.negative s.value s.exponent
  | some (negativeExponent, digits) =>
    let e := ofDigits digits
    if maxExponent < e then
      if s.value ≠ 0 ∧ !negativeExponent then none else some (Binary64.zero n.negative)
    else scale? n.negative s.value (if negativeExponent then s.exponent - e else s.exponent + e)

/-- The number that a numeral stands for; none if it is too great for a float. The integer
zero has no sign, so `-0` is a float. -/
def ofNumeral? (n : Numeral) : Option Number :=
  let value := ofDigits n.whole
  if n.fraction.isEmpty && n.exponent.isNone && !n.negative && value < limit then
    some (integer value)
  else if n.fraction.isEmpty && n.exponent.isNone && n.negative && value ≠ 0 &&
      value ≤ 0x8000000000000000 then
    some (integer (-value))
  else (floatOf? n).map float

def read? (s : List Char) : Option Number :=
  match scanNumeral? s with
  | some (n, []) => ofNumeral? n
  | _ => none

def text : Number → List Char
  | integer i => integerDigits i
  | float x => x.jsonText?.getD "null".toList

end Number
end TableQuery.Json
