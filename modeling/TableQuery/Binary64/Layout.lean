import TableQuery.Binary64.Shortest
import TableQuery.Text.Digits

/-! The two written forms of a value: always positional, or scientific outside a range of
exponents as JSON numbers are written. -/
namespace TableQuery.Binary64
open TableQuery.Text

def positional (digits : List Char) (place : Int) : List Char :=
  if place ≤ 0 then '0' :: '.' :: (List.replicate place.natAbs '0' ++ digits)
  else if digits.length ≤ place then
    digits ++ List.replicate (place.toNat - digits.length) '0'
  else digits.take place.toNat ++ '.' :: digits.drop place.toNat

def scientific (digits : List Char) (place : Int) : List Char :=
  let exponent := place - 1
  let mantissa := match digits with
    | [] => []
    | [d] => [d]
    | d :: rest => d :: '.' :: rest
  mantissa ++ 'e' :: (if exponent < 0 then '-' else '+') :: digitsOf exponent.natAbs

def signed (negative : Bool) (s : List Char) : List Char := if negative then '-' :: s else s

def plainText (x : Binary64) : List Char :=
  if x.isNaN then "NaN".toList
  else if x.isInfinite then signed x.negative "inf".toList
  else if x.isZero then signed x.negative ['0']
  else
    -- of two shortest decimals as near, the greater one
    let d := shortest (· + 1) x.magnitude
    let digits := digitsOf d.digits
    signed x.negative (positional digits (digits.length + d.exponent))

def jsonText? (x : Binary64) : Option (List Char) :=
  if x.isNaN || x.isInfinite then none
  else if x.isZero then some (signed x.negative "0.0".toList)
  else
    -- and here the even one
    let d := shortest (fun n => n + n % 2) x.magnitude
    let digits := digitsOf d.digits
    let place := digits.length + d.exponent
    some <| signed x.negative <|
      if place < -4 ∨ 16 < place then scientific digits place
      else if digits.length ≤ place then positional digits place ++ ".0".toList
      else positional digits place

end TableQuery.Binary64
