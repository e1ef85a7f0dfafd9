import TableQuery.Binary64.Basic

/-! The whole part of a value, and the comparison with integers of 64 bits that rests on it. -/
namespace TableQuery.Binary64

/-- The magnitude of the whole part. The last bits of a magnitude are the fraction, one bit less
of them in each binade from one on, and all of a magnitude below one is fraction. -/
def wholeMagnitude (magnitude : Nat) : Nat :=
  if magnitude / binade < 1023 then 0
  else
    let fraction := 1075 - magnitude / binade
    magnitude >>> fraction <<< fraction

theorem wholeMagnitude_le (magnitude : Nat) : wholeMagnitude magnitude ≤ magnitude := by
  unfold wholeMagnitude
  split
  · exact Nat.zero_le _
  · dsimp only
    rw [Nat.shiftLeft_eq, Nat.shiftRight_eq_div_pow]
    exact Nat.div_mul_le_self _ _

def truncate (x : Binary64) : Binary64 :=
  ⟨x.negative, wholeMagnitude x.magnitude,
    Nat.lt_of_le_of_lt (wholeMagnitude_le _) x.magnitude_lt⟩

def toInteger (x : Binary64) : Int64 :=
  if x.isNaN then 0
  else Int64.ofInt (max (-0x8000000000000000) (min (x.units.tdiv one) 0x7FFFFFFFFFFFFFFF))

def integerBound (negative : Bool) : Binary64 := ⟨negative, 0x43E0000000000000, by decide⟩

/-- The place of an integer among the values, nothing rounded and NaN above. Between the bounds
of the integers the whole part decides, and if that is the integer itself, the fraction. -/
def compareInteger (i : Int64) (x : Binary64) : Ordering :=
  if x.isNaN || (x.compare? (integerBound false)).any (·.isGE) then .lt
  else if (x.compare? (integerBound true)).any (·.isLT) then .gt
  else
    let whole := x.truncate
    match compare i.toInt whole.toInteger.toInt with
    | .eq =>
      match x.compare? whole with
      | some .gt => .lt
      | some .lt => .gt
      | _ => .eq
    | order => order

end TableQuery.Binary64
