import TableQuery.Binary64.Basic
import Mathlib.Order.Monotone.Basic
import Mathlib.Algebra.Order.Ring.Nat

/-! Values in units: a magnitude is a whole number of spacings, and the values grow with it. -/
namespace TableQuery.Binary64

def spacing (magnitude : Nat) : Nat := 2 ^ (magnitude / binade - 1)

theorem spacing_pos (m : Nat) : 0 < spacing m := Nat.two_pow_pos _

theorem unitsOf_of_lt {m : Nat} (h : m < binade) : unitsOf m = m := if_pos h

theorem unitsOf_of_le {m : Nat} (h : binade ≤ m) :
    unitsOf m = (binade + m % binade) * spacing m := by
  rw [unitsOf, if_neg (Nat.not_lt.2 h), Nat.shiftLeft_eq, spacing]

/-- A magnitude is `j` spacings, where each of `s` binades doubles the spacing. -/
theorem unitsOf_place {s j : Nat} (hs : s = 0 ∨ binade ≤ j) (hj : j ≤ 2 * binade) :
    unitsOf (s * binade + j) = j * 2 ^ s := by
  by_cases hlow : s * binade + j < binade
  · have hzero : s = 0 := by
      unfold binade at *
      omega
    rw [unitsOf_of_lt hlow, hzero, Nat.zero_mul, Nat.zero_add, Nat.pow_zero, Nat.mul_one]
  · rw [unitsOf_of_le (Nat.not_lt.1 hlow), spacing]
    rcases Nat.lt_or_eq_of_le hj with h | h
    · have hquotient : (s * binade + j) / binade - 1 = s := by
        unfold binade at *
        omega
      have hrest : binade + (s * binade + j) % binade = j := by
        unfold binade at *
        omega
      rw [hquotient, hrest]
    · have hquotient : (s * binade + j) / binade - 1 = s + 1 := by
        unfold binade at *
        omega
      have hrest : binade + (s * binade + j) % binade = binade := by
        unfold binade at *
        omega
      rw [hquotient, hrest, h, Nat.pow_succ, Nat.mul_comm 2, Nat.mul_assoc, Nat.mul_comm 2]

theorem exists_place (m : Nat) :
    ∃ s j, m = s * binade + j ∧ (s = 0 ∨ binade ≤ j) ∧ j < 2 * binade ∧ spacing m = 2 ^ s := by
  refine ⟨m / binade - 1, m - (m / binade - 1) * binade, ?_, ?_, ?_, rfl⟩
  · unfold binade
    omega
  · unfold binade
    omega
  · unfold binade
    omega

theorem unitsOf_succ (m : Nat) : unitsOf (m + 1) = unitsOf m + spacing m := by
  obtain ⟨s, j, rfl, hs, hj, hspacing⟩ := exists_place m
  have hnext : s = 0 ∨ binade ≤ j + 1 := hs.imp_right Nat.le_succ_of_le
  rw [hspacing, unitsOf_place hs (Nat.le_of_lt hj), Nat.add_assoc, unitsOf_place hnext hj,
    Nat.succ_mul]

theorem unitsOf_strictMono : StrictMono unitsOf :=
  strictMono_nat_of_lt_succ fun m => by
    rw [unitsOf_succ]
    exact Nat.lt_add_of_pos_right (spacing_pos m)

theorem unitsOf_pos {m : Nat} (h : 0 < m) : 0 < unitsOf m :=
  Nat.lt_of_le_of_lt (Nat.zero_le _) (unitsOf_strictMono h)

theorem unitsOf_eq_zero_iff {m : Nat} : unitsOf m = 0 ↔ m = 0 :=
  unitsOf_strictMono.injective.eq_iff' (by decide)

theorem unitsOf_le_iff {m k : Nat} : unitsOf m ≤ unitsOf k ↔ m ≤ k := unitsOf_strictMono.le_iff_le

theorem one_pos : 0 < one := by
  unfold one
  -- the exponent is kept symbolic, so that nothing computes the power
  generalize 1074 = n
  exact Nat.two_pow_pos n

theorem one_eq {e : Nat} (h : e ≤ 1074) : one = 2 ^ e * 2 ^ (1074 - e) := by
  unfold one
  generalize 1074 = n at h ⊢
  rw [← Nat.pow_add, Nat.add_sub_cancel' h]
  rfl

/-- The magnitudes of the powers of two from one on. -/
theorem unitsOf_power {s e : Nat} (h : s + 52 = e + 1074) :
    unitsOf (s * binade + binade) = 2 ^ e * one := by
  have hbinade : binade = 2 ^ 52 := by decide
  rw [unitsOf_place (.inr (Nat.le_refl _)) (by omega)]
  unfold one
  generalize 1074 = n at h ⊢
  calc binade * 2 ^ s = 2 ^ (s + 52) := by rw [hbinade, Nat.add_comm, Nat.pow_add]
    _ = 2 ^ e * 2 ^ n := by rw [h, Nat.pow_add]

/-- Integers of 53 bits are values. -/
theorem exists_unitsOf_eq {a : Nat} (h : a ≤ 2 * binade) :
    ∃ k ≤ infinite, unitsOf k = a * one := by
  rcases Nat.eq_zero_or_pos a with rfl | hpos
  · exact ⟨0, Nat.zero_le _, by rw [Nat.zero_mul]; rfl⟩
  · obtain ⟨e, he, hlow, hhigh⟩ : ∃ e ≤ 52, binade ≤ a * 2 ^ e ∧ a * 2 ^ e ≤ 2 * binade := by
      rcases Nat.lt_or_eq_of_le h with hlt | rfl
      · have hlog : a.log2 < 53 := (Nat.log2_lt hpos.ne').2 hlt
        have hbinade : binade = 2 ^ a.log2 * 2 ^ (52 - a.log2) := by
          rw [← Nat.pow_add, Nat.add_sub_cancel' (by omega)]
          rfl
        refine ⟨52 - a.log2, Nat.sub_le _ _, ?_, ?_⟩
        · rw [hbinade]
          exact Nat.mul_le_mul_right _ (Nat.log2_self_le hpos.ne')
        · rw [hbinade, ← Nat.mul_assoc, ← Nat.pow_succ']
          exact Nat.mul_le_mul_right _ (Nat.le_of_lt Nat.lt_log2_self)
      · exact ⟨0, Nat.zero_le _, by omega, by omega⟩
    refine ⟨(1074 - e) * binade + a * 2 ^ e, ?_, ?_⟩
    · have hexponent : (1074 - e) * binade ≤ 1074 * binade := Nat.mul_le_mul_right _ (by omega)
      have hinfinite : infinite = 2047 * binade := by decide
      omega
    · have hone : one = 2 ^ e * 2 ^ (1074 - e) := one_eq (by omega)
      rw [unitsOf_place (.inr hlow) hhigh, hone, Nat.mul_assoc]

section
variable {x y : Binary64}

theorem bits_inj : x.bits = y.bits ↔ x = y := by
  refine ⟨fun h => ?_, congrArg bits⟩
  obtain ⟨xnegative, xmagnitude, hx⟩ := x
  obtain ⟨ynegative, ymagnitude, hy⟩ := y
  cases xnegative <;> cases ynegative <;> simp [bits] at h ⊢ <;> omega

/-- Values grow with the magnitudes, so that no value but zero has two signs. -/
theorem units_inj : x.units = y.units ↔ x = y ∨ x.isZero = true ∧ y.isZero = true := by
  have hmagnitude : unitsOf x.magnitude = unitsOf y.magnitude ↔ x.magnitude = y.magnitude :=
    unitsOf_strictMono.injective.eq_iff
  have hx := @unitsOf_eq_zero_iff x.magnitude
  have hy := @unitsOf_eq_zero_iff y.magnitude
  obtain ⟨xnegative, xmagnitude, hxlt⟩ := x
  obtain ⟨ynegative, ymagnitude, hylt⟩ := y
  -- one sign leaves the magnitudes to compare, and two signs a sum of values that is zero
  cases xnegative <;> cases ynegative <;>
    simp only [units, isZero, mk.injEq, beq_iff_eq, reduceIte, reduceCtorEq, false_and, true_and,
      false_or] at * <;>
    omega

theorem isNaN_of_isZero (h : x.isZero = true) : x.isNaN = false := by
  rw [isNaN, eq_of_beq h]
  rfl

end

end TableQuery.Binary64
