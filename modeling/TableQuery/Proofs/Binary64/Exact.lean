import Mathlib.Data.EReal.Basic
import Mathlib.Data.Int.ConditionallyCompleteOrder
import TableQuery.Proofs.Binary64.Units

/-! The number that a value stands for, read off its encoding, and its place among the units. -/
namespace TableQuery.Binary64

def exponent (magnitude : Nat) : Nat := max (magnitude / binade) 1

def significand (magnitude : Nat) : Nat :=
  (if magnitude < binade then 0 else binade) + magnitude % binade

noncomputable def real (x : Binary64) : ℝ :=
  (if x.negative then -1 else 1) * significand x.magnitude *
    2 ^ ((exponent x.magnitude : ℤ) - 1075)

noncomputable def extended? (x : Binary64) : Option EReal :=
  if x.isNaN then none
  else if x.isInfinite then some (if x.negative then ⊥ else ⊤)
  else some (x.real : EReal)

theorem unitsOf_eq_significand (m : Nat) :
    unitsOf m = significand m * 2 ^ (exponent m - 1) := by
  unfold significand exponent
  by_cases h : m < binade
  · rw [unitsOf_of_lt h, if_pos h, Nat.div_eq_of_lt h, Nat.mod_eq_of_lt h, Nat.zero_add,
      Nat.max_eq_right (Nat.zero_le 1), Nat.pow_zero, Nat.mul_one]
  · have hle : binade ≤ m := Nat.not_lt.1 h
    have hexponent : 1 ≤ m / binade := (Nat.le_div_iff_mul_le (by decide)).2 (by omega)
    rw [unitsOf_of_le hle, if_neg h, Nat.max_eq_left hexponent, spacing]

theorem cast_one : ((one : ℕ) : ℝ) = 2 ^ (1074 : ℤ) := by
  have hexponent : (1074 : ℤ) = (1074 : ℕ) := rfl
  rw [hexponent, zpow_natCast]
  unfold one
  generalize 1074 = n
  exact Nat.cast_pow 2 n

theorem unitsOf_div_one (m : Nat) :
    (unitsOf m : ℝ) / one = significand m * 2 ^ ((exponent m : ℤ) - 1075) := by
  have hpositive : 1 ≤ exponent m := Nat.le_max_right _ _
  have hexponent : (exponent m : ℤ) - 1075 = ((exponent m - 1 : ℕ) : ℤ) - 1074 := by omega
  rw [unitsOf_eq_significand, cast_one, hexponent, zpow_sub₀ two_ne_zero, zpow_natCast,
    Nat.cast_mul, Nat.cast_pow, Nat.cast_two, mul_div_assoc]

theorem real_eq (x : Binary64) : x.real = x.units / one := by
  rw [real, mul_assoc, ← unitsOf_div_one, units]
  cases x.negative with
  | true => simp only [if_true, Int.cast_neg, Int.cast_natCast, neg_mul, one_mul, neg_div]
  | false => simp only [if_false, Bool.false_eq_true, Int.cast_natCast, one_mul]

noncomputable def ofUnits (u : Int) : EReal :=
  if unitsOf infinite ≤ u then ⊤
  else if u ≤ -unitsOf infinite then ⊥
  else ((u / one : ℝ) : EReal)

theorem ofUnits_of_lt {u : Int} (hlow : -(unitsOf infinite : Int) < u)
    (hhigh : u < unitsOf infinite) : ofUnits u = ((u / one : ℝ) : EReal) := by
  rw [ofUnits, if_neg (Int.not_le.2 hhigh), if_neg (Int.not_le.2 hlow)]

theorem ofUnits_infinite : ofUnits (unitsOf infinite) = ⊤ := if_pos (Int.le_refl _)

theorem ofUnits_neg_infinite : ofUnits (-unitsOf infinite) = ⊥ := by
  have hpos : 0 < unitsOf infinite := unitsOf_pos (by decide)
  rw [ofUnits, if_neg (by omega), if_pos (Int.le_refl _)]

theorem strictMonoOn_ofUnits :
    StrictMonoOn ofUnits (Set.Icc (-(unitsOf infinite : Int)) (unitsOf infinite)) := by
  intro u hu v hv huv
  have hone : (0 : ℝ) < one := Nat.cast_pos.2 one_pos
  by_cases hhigh : v = unitsOf infinite
  · by_cases hlow : u = -unitsOf infinite
    · rw [hhigh, hlow, ofUnits_infinite, ofUnits_neg_infinite]
      exact bot_lt_top
    · rw [hhigh, ofUnits_infinite, ofUnits_of_lt (lt_of_le_of_ne hu.1 (Ne.symm hlow)) (by omega)]
      exact EReal.coe_lt_top _
  · have hvreal := ofUnits_of_lt (Int.lt_of_le_of_lt hu.1 huv) (lt_of_le_of_ne hv.2 hhigh)
    by_cases hlow : u = -unitsOf infinite
    · rw [hlow, ofUnits_neg_infinite, hvreal]
      exact EReal.bot_lt_coe _
    · have hureal := ofUnits_of_lt (lt_of_le_of_ne hu.1 (Ne.symm hlow))
        (Int.lt_of_lt_of_le huv hv.2)
      rw [hureal, hvreal, EReal.coe_lt_coe_iff]
      exact div_lt_div_of_pos_right (Int.cast_lt.2 huv) hone

variable {x : Binary64}

theorem units_mem (hx : x.isNaN = false) :
    x.units ∈ Set.Icc (-(unitsOf infinite : Int)) (unitsOf infinite) := by
  have hle : unitsOf x.magnitude ≤ unitsOf infinite :=
    unitsOf_le_iff.2 (Nat.not_lt.1 (of_decide_eq_false hx))
  rw [Set.mem_Icc, units]
  split <;> omega

theorem extended?_eq (hx : x.isNaN = false) : x.extended? = some (ofUnits x.units) := by
  have hle : x.magnitude ≤ infinite := Nat.not_lt.1 (of_decide_eq_false hx)
  rw [extended?, hx, if_neg Bool.false_ne_true]
  by_cases hinfinite : x.magnitude = infinite
  · rw [isInfinite, hinfinite, if_pos (beq_self_eq_true _), units, hinfinite]
    cases x.negative with
    | true => exact congrArg some ofUnits_neg_infinite.symm
    | false => exact congrArg some ofUnits_infinite.symm
  · have hlt : unitsOf x.magnitude < unitsOf infinite :=
      unitsOf_strictMono (Nat.lt_of_le_of_ne hle hinfinite)
    have hfinite : x.isInfinite = false := beq_eq_false_iff_ne.2 hinfinite
    have hbounds : -(unitsOf infinite : Int) < x.units ∧ x.units < unitsOf infinite := by
      rw [units]
      split <;> omega
    rw [hfinite, if_neg Bool.false_ne_true, ofUnits_of_lt hbounds.1 hbounds.2, real_eq]

/-- Integers of 64 bits are between the infinities. -/
theorem natAbs_mul_one_lt (i : Int64) : (i.toInt * one).natAbs < unitsOf infinite := by
  have hbound : unitsOf (1085 * binade + binade) = 2 ^ 63 * one := unitsOf_power (by decide)
  have hrange : i.toInt.natAbs ≤ 2 ^ 63 := by
    have hlow := i.le_toInt
    have hhigh := i.toInt_lt
    omega
  calc (i.toInt * one).natAbs = i.toInt.natAbs * one := by rw [Int.natAbs_mul, Int.natAbs_natCast]
    _ ≤ 2 ^ 63 * one := Nat.mul_le_mul_right one hrange
    _ = unitsOf (1085 * binade + binade) := hbound.symm
    _ < unitsOf infinite := unitsOf_strictMono (by decide)

theorem ofUnits_mul_one (i : Int64) : ofUnits (i.toInt * one) = ((i.toInt : ℝ) : EReal) := by
  have hunits := natAbs_mul_one_lt i
  have hone : (one : ℝ) ≠ 0 := Nat.cast_ne_zero.2 one_pos.ne'
  rw [ofUnits_of_lt (by omega) (by omega), Int.cast_mul, Int.cast_natCast,
    mul_div_cancel_right₀ _ hone]

end TableQuery.Binary64
