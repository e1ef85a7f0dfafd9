import TableQuery.Binary64.Truncation
import TableQuery.Proofs.Binary64.Units

/-! The comparison of an integer with a value is exact. Whole parts are compared as integers of 64
bits, which every value between the bounds has one of, and what is left is less than one. -/
namespace TableQuery.Binary64
variable {x : Binary64}

/-- A whole part in units, of so many spacings. -/
theorem div_one_mul_one (s j : Nat) :
    j * 2 ^ s / one * one = j / 2 ^ (1074 - s) * 2 ^ (1074 - s) * 2 ^ s := by
  rcases Nat.le_total s 1074 with h | h
  · rw [one_eq h, Nat.mul_comm (2 ^ s), Nat.mul_div_mul_right _ _ (Nat.two_pow_pos s),
      Nat.mul_assoc]
  · have hdvd : one ∣ 2 ^ s := by
      unfold one
      generalize 1074 = n at h
      exact Nat.pow_dvd_pow 2 h
    rw [Nat.div_mul_cancel (Nat.dvd_mul_left_of_dvd hdvd j), Nat.sub_eq_zero_of_le h, Nat.pow_zero,
      Nat.div_one, Nat.mul_one]

/-- The last bits of a magnitude are those of its number of spacings. -/
theorem unitsOf_div_mul {s j p : Nat} (hlow : binade ≤ j) (hj : j < 2 * binade) (hp : 0 < p)
    (hdvd : p ∣ binade) : unitsOf ((s * binade + j) / p * p) = j / p * p * 2 ^ s := by
  obtain ⟨c, hc⟩ := hdvd
  have hquotient := Nat.div_add_mod' j p
  have hplace : (s * binade + j) / p * p = s * binade + j / p * p := by
    have hrest : (s * binade + j) % p = j % p := by rw [hc, Nat.mul_left_comm, Nat.mul_add_mod]
    have := Nat.div_add_mod' (s * binade + j) p
    omega
  have hwhole : binade ≤ j / p * p := by
    rw [hc, Nat.mul_comm] at hlow ⊢
    exact Nat.mul_le_mul_right p ((Nat.le_div_iff_mul_le hp).2 hlow)
  rw [hplace, unitsOf_place (.inr hwhole) (by omega)]

/-- The whole part is what its name says: a quotient by one, in units. -/
theorem unitsOf_wholeMagnitude (m : Nat) :
    unitsOf (wholeMagnitude m) = unitsOf m / one * one := by
  obtain ⟨s, j, rfl, hs, hj, -⟩ := exists_place m
  unfold wholeMagnitude
  split
  · next hsmall =>
    have hlt : unitsOf (s * binade + j) < one := by
      rw [← Nat.one_mul one, ← Nat.pow_zero 2, ← unitsOf_power (s := 1022) (e := 0) (by decide)]
      refine unitsOf_strictMono ?_
      have := (Nat.div_lt_iff_lt_mul (by decide)).1 hsmall
      omega
    rw [Nat.div_eq_of_lt hlt, Nat.zero_mul, unitsOf_of_lt (by decide)]
  · next hlarge =>
    have hexponent : (s * binade + j) / binade = s + 1 := by
      unfold binade at *
      omega
    have hlow : binade ≤ j := by
      unfold binade at *
      omega
    have hdvd : 2 ^ (1074 - s) ∣ binade := by
      refine Nat.pow_dvd_pow (n := 52) 2 ?_
      unfold binade at *
      omega
    dsimp only
    rw [hexponent, Nat.add_sub_add_right 1074 1 s, Nat.shiftLeft_eq, Nat.shiftRight_eq_div_pow,
      unitsOf_div_mul hlow hj (Nat.two_pow_pos _) hdvd, unitsOf_place hs (Nat.le_of_lt hj),
      div_one_mul_one]

theorem units_truncate (x : Binary64) : x.truncate.units = x.units.tdiv one * one := by
  unfold units truncate
  dsimp only
  split
  · rw [unitsOf_wholeMagnitude, Int.neg_tdiv, ← Int.ofNat_tdiv, Int.natCast_mul, Int.neg_mul]
  · rw [unitsOf_wholeMagnitude, ← Int.ofNat_tdiv, Int.natCast_mul]

theorem isNaN_truncate (hx : x.isNaN = false) : x.truncate.isNaN = false := by
  refine decide_eq_false (Nat.not_lt.2 (Nat.le_trans (wholeMagnitude_le _) ?_))
  exact Nat.not_lt.1 (of_decide_eq_false hx)

theorem toInt_toInteger (hx : x.isNaN = false) (hlow : -2 ^ 63 ≤ x.units.tdiv one)
    (hhigh : x.units.tdiv one < 2 ^ 63) : x.toInteger.toInt = x.units.tdiv one := by
  rw [toInteger, if_neg (Bool.eq_false_iff.1 hx), Int.min_eq_left (by omega),
    Int.max_eq_right (by omega)]
  exact Int64.toInt_ofInt_of_le hlow hhigh

theorem units_integerBound (negative : Bool) :
    (integerBound negative).units = if negative then -(2 ^ 63 * one : Int) else 2 ^ 63 * one := by
  have hmagnitude : (integerBound negative).magnitude = 1085 * binade + binade := rfl
  rw [units, hmagnitude, unitsOf_power (e := 63) (by decide), Int.natCast_mul, Int.natCast_pow]
  rfl

section
variable {i u : Int}

theorem mul_one_lt_of_lt_tdiv (h : i < u.tdiv one) : i * one < u := by
  have hstep := Int.mul_le_mul_of_nonneg_right (Int.add_one_le_of_lt h) (Int.natCast_nonneg one)
  have hsplit := Int.mul_tdiv_add_tmod u one
  have hrest := Int.lt_tmod_of_pos u (Int.natCast_pos.2 one_pos)
  rw [Int.add_mul, Int.one_mul, Int.mul_comm (u.tdiv one)] at hstep
  omega

theorem lt_mul_one_of_tdiv_lt (h : u.tdiv one < i) : u < i * one := by
  have hstep := Int.mul_le_mul_of_nonneg_right (Int.add_one_le_of_lt h) (Int.natCast_nonneg one)
  have hsplit := Int.mul_tdiv_add_tmod u one
  have hrest := Int.tmod_lt_of_pos u (Int.natCast_pos.2 one_pos)
  rw [Int.add_mul, Int.one_mul, Int.mul_comm (u.tdiv one)] at hstep
  omega

end

theorem compare?_of_not_isNaN {x y : Binary64} (hx : x.isNaN = false) (hy : y.isNaN = false) :
    x.compare? y = some (compare x.units y.units) := by
  rw [compare?, hx, hy]
  rfl

/-- Between the bounds of the integers the whole part of a value is one of them. -/
theorem toInt_toInteger_truncate (hx : x.isNaN = false) (hlow : -(2 ^ 63 * one) ≤ x.units)
    (hhigh : x.units < 2 ^ 63 * one) : x.truncate.toInteger.toInt = x.units.tdiv one := by
  have hone : (0 : Int) < one := Int.natCast_pos.2 one_pos
  have hwhole : x.truncate.units.tdiv one = x.units.tdiv one := by
    rw [units_truncate, Int.mul_tdiv_cancel _ (Int.ne_of_gt hone)]
  rw [← hwhole]
  refine toInt_toInteger (isNaN_truncate hx) ?_ ?_
  · rw [hwhole]
    by_contra hlt
    have := lt_mul_one_of_tdiv_lt (Int.not_le.1 hlt)
    omega
  · rw [hwhole]
    rcases Int.lt_or_le x.units 0 with hneg | hnonneg
    · have hle := Int.tdiv_le_tdiv hone (Int.le_of_lt hneg)
      rw [Int.zero_tdiv] at hle
      omega
    · rw [Int.tdiv_eq_ediv_of_nonneg hnonneg]
      exact Int.ediv_lt_of_lt_mul hone hhigh

theorem compare?_integerBound (hx : x.isNaN = false) (negative : Bool) :
    x.compare? (integerBound negative) =
      some (compare x.units (if negative then -(2 ^ 63 * one) else 2 ^ 63 * one)) := by
  rw [compare?_of_not_isNaN hx (by cases negative <;> rfl), units_integerBound]

section
variable {i : Int64}

theorem compareInteger_of_above (hx : x.isNaN = false) (h : 2 ^ 63 * one ≤ x.units) :
    compareInteger i x = .lt := by
  simp only [compareInteger, hx, compare?_integerBound, Option.any_some, Bool.false_eq_true,
    if_false, Int.isGE_compare.2 h, Bool.or_true, if_true]

theorem compareInteger_of_below (hx : x.isNaN = false) (h : x.units < -(2 ^ 63 * one)) :
    compareInteger i x = .gt := by
  have hnot : (compare x.units (2 ^ 63 * one)).isGE = false := by
    have := one_pos
    rw [← Bool.not_eq_true, Int.isGE_compare]
    omega
  simp only [compareInteger, hx, compare?_integerBound, Option.any_some, Bool.false_eq_true,
    if_false, hnot, Bool.or_self, if_true, Int.compare_eq_lt.2 h, Ordering.isLT_lt]

/-- Whole parts are compared first, and the fraction decides between equal ones. -/
theorem compareInteger_of_within (hx : x.isNaN = false) (hlow : -(2 ^ 63 * one) ≤ x.units)
    (hhigh : x.units < 2 ^ 63 * one) :
    compareInteger i x = compare (i.toInt * one) x.units := by
  have habove : (compare x.units (2 ^ 63 * one)).isGE = false := by
    rw [← Bool.not_eq_true, Int.isGE_compare]
    exact Int.not_le.2 hhigh
  have hbelow : (compare x.units (-(2 ^ 63 * one))).isLT = false := by
    rw [← Bool.not_eq_true, Ordering.isLT_iff_eq_lt, Int.compare_eq_lt]
    exact Int.not_lt.2 hlow
  simp only [compareInteger, hx, compare?_integerBound, Bool.or_self, Option.any_some, if_true,
    if_false, Bool.false_eq_true, habove, hbelow, toInt_toInteger_truncate hx hlow hhigh,
    compare?_of_not_isNaN hx (isNaN_truncate hx), units_truncate]
  rcases Int.lt_trichotomy i.toInt (x.units.tdiv one) with hlt | heq | hgt
  · rw [Int.compare_eq_lt.2 hlt, Int.compare_eq_lt.2 (mul_one_lt_of_lt_tdiv hlt)]
  · rw [Int.compare_eq_eq.2 heq, heq, ← Int.compare_swap x.units]
    cases compare x.units (x.units.tdiv one * one) <;> rfl
  · rw [Int.compare_eq_gt.2 hgt, Int.compare_eq_gt.2 (lt_mul_one_of_tdiv_lt hgt)]

end

/-- Nothing is lost in comparing an integer with a value by parts. -/
theorem compareInteger_eq_compare_units (i : Int64) (x : Binary64) :
    compareInteger i x = if x.isNaN then .lt else compare (i.toInt * one) x.units := by
  cases hx : x.isNaN with
  | true => rw [compareInteger, hx, Bool.true_or, if_pos rfl, if_pos rfl]
  | false =>
    have hone : (0 : Int) < one := Int.natCast_pos.2 one_pos
    have hlow : -(2 ^ 63 * one) ≤ i.toInt * one := by
      rw [← Int.neg_mul]
      exact Int.mul_le_mul_of_nonneg_right i.le_toInt (Int.le_of_lt hone)
    have hhigh : i.toInt * one < 2 ^ 63 * one := Int.mul_lt_mul_of_pos_right i.toInt_lt hone
    rw [if_neg Bool.false_ne_true]
    rcases Int.lt_or_le x.units (2 ^ 63 * one) with hless | habove
    · rcases Int.lt_or_le x.units (-(2 ^ 63 * one)) with hbelow | hwithin
      · rw [compareInteger_of_below hx hbelow]
        exact (Int.compare_eq_gt.2 (Int.lt_of_lt_of_le hbelow hlow)).symm
      · exact compareInteger_of_within hx hwithin hless
    · rw [compareInteger_of_above hx habove]
      exact (Int.compare_eq_lt.2 (Int.lt_of_lt_of_le hhigh habove)).symm

end TableQuery.Binary64
