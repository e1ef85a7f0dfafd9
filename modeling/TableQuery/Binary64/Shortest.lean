import TableQuery.Binary64.Basic

/-! The shortest decimal that reads back as a given value. -/
namespace TableQuery.Binary64

structure Decimal where
  digits : Nat
  exponent : Int
deriving DecidableEq

/-- Where a value lies and which decimals read back as it, in half units: those between
`low` and `high`, the bounds included for an even magnitude. -/
structure Interval where
  low : Nat
  value : Nat
  high : Nat
  closed : Bool

def intervalOf (magnitude : Nat) : Interval where
  low := unitsOf (magnitude - 1) + unitsOf magnitude
  value := 2 * unitsOf magnitude
  high := unitsOf magnitude + unitsOf (magnitude + 1)
  closed := magnitude % 2 == 0

def decimalPlace (value : Nat) : Int :=
  let unit := 2 * one
  if unit ≤ value then (Nat.toDigits 10 (value / unit)).length
  else 1 - ((Nat.toDigits 10 ((unit - 1) / value)).length : Int)

/-- The multiple of `10 ^ exponent` next to the value that reads back as it, if any:
the nearer of two, and of two equally near the one that `tie` picks. -/
def Interval.onGrid? (i : Interval) (tie : Nat → Nat) (exponent : Int) : Option Nat :=
  let step := if 0 ≤ exponent then 2 * one * Nat.pow 10 exponent.toNat else 2 * one
  let scale := if 0 ≤ exponent then 1 else Nat.pow 10 exponent.natAbs
  let inside (n : Nat) : Bool :=
    if i.closed then i.low * scale ≤ n * step && n * step ≤ i.high * scale
    else i.low * scale < n * step && n * step < i.high * scale
  let below := i.value * scale / step
  let rest := i.value * scale % step
  match inside below, inside (below + 1) with
  | true, true =>
    some (if 2 * rest < step then below else if step < 2 * rest then below + 1 else tie below)
  | true, false => some below
  | false, true => some (below + 1)
  | false, false => none

def Decimal.normal : Nat → Decimal → Decimal
  | 0, d => d
  | fuel + 1, d =>
    if d.digits % 10 = 0 ∧ d.digits ≠ 0 then normal fuel ⟨d.digits / 10, d.exponent + 1⟩ else d

def shortest (tie : Nat → Nat) (magnitude : Nat) : Decimal :=
  let interval := intervalOf magnitude
  let place := decimalPlace interval.value
  let found := (List.range' 1 17).findSome? fun (count : Nat) =>
    (interval.onGrid? tie (place - count)).map fun n => Decimal.mk n (place - count)
  (found.getD ⟨0, 0⟩).normal 17

end TableQuery.Binary64
