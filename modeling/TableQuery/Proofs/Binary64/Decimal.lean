import Mathlib.Algebra.Order.Field.Power
import Mathlib.Data.Rat.Floor
import Mathlib.Tactic.Linarith
import Mathlib.Tactic.Positivity
import TableQuery.Binary64.Shortest
import TableQuery.Proofs.Binary64.Units
import TableQuery.Proofs.Text.Digits

/-! Decimals: the place of a value's first digit, and the multiples of a power of ten next to a
value. Values are in half units here, as intervals are. -/
namespace TableQuery.Binary64
open TableQuery.Text

def Decimal.value (d : Decimal) : ℚ := d.digits * 10 ^ d.exponent

theorem Decimal.value_normal (fuel : Nat) (d : Decimal) : (normal fuel d).value = d.value := by
  induction fuel generalizing d with
  | zero => rfl
  | succ fuel ih =>
    rw [normal]
    split
    · next h =>
      have hwhole : d.digits = d.digits / 10 * 10 := by omega
      have hdigits : (d.digits : ℚ) = (d.digits / 10 : Nat) * 10 := by exact_mod_cast hwhole
      rw [ih, value, value, zpow_add_one₀ (by norm_num), hdigits]
      ring
    · rfl

theorem Decimal.digits_normal_pos (fuel : Nat) {d : Decimal} (h : 0 < d.digits) :
    0 < (normal fuel d).digits := by
  induction fuel generalizing d with
  | zero => exact h
  | succ fuel ih =>
    rw [normal]
    split
    · next hzero =>
      refine ih ?_
      dsimp only
      omega
    · exact h

def unit : ℚ := 2 * one

theorem unit_eq_cast : unit = ((2 * one : Nat) : ℚ) := by
  rw [unit]
  push_cast
  rfl

theorem unit_pos : 0 < unit := by
  have h : (0 : ℚ) < one := Nat.cast_pos.2 one_pos
  unfold unit
  positivity

/-- The first digit of a value stands where it should: at the exponent one below its place. -/
theorem decimalPlace_bounds {v : Nat} (h : 0 < v) :
    (10 : ℚ) ^ (decimalPlace v - 1) * unit ≤ v ∧ (v : ℚ) < 10 ^ decimalPlace v * unit := by
  have hpos : 0 < 2 * one := Nat.mul_pos Nat.two_pos one_pos
  rw [unit_eq_cast]
  unfold decimalPlace
  generalize 2 * one = u at hpos ⊢
  dsimp only
  split
  · next hle =>
    have hquotient : 0 < v / u := Nat.div_pos hle hpos
    have hlow := (Nat.le_div_iff_mul_le hpos).1 (pow_length_digitsOf_le hquotient)
    have hhigh := (Nat.div_lt_iff_lt_mul hpos).1 (lt_pow_length_digitsOf (v / u))
    have hlength : 1 ≤ (digitsOf (v / u)).length := Nat.length_toDigits_pos
    change (10 : ℚ) ^ (((digitsOf (v / u)).length : Int) - 1) * u ≤ v ∧
      (v : ℚ) < 10 ^ ((digitsOf (v / u)).length : Int) * u
    rw [← Nat.cast_one, ← Nat.cast_sub hlength, zpow_natCast, zpow_natCast]
    exact ⟨by exact_mod_cast hlow, by exact_mod_cast hhigh⟩
  · next hlt =>
    have hquotient : 0 < (u - 1) / v := Nat.div_pos (by omega) h
    have hlow := (Nat.le_div_iff_mul_le h).1 (pow_length_digitsOf_le hquotient)
    have hhigh := (Nat.div_lt_iff_lt_mul h).1 (lt_pow_length_digitsOf ((u - 1) / v))
    have hlength : 1 ≤ (digitsOf ((u - 1) / v)).length := Nat.length_toDigits_pos
    change (10 : ℚ) ^ ((1 - ((digitsOf ((u - 1) / v)).length : Int)) - 1) * u ≤ v ∧
      (v : ℚ) < 10 ^ (1 - ((digitsOf ((u - 1) / v)).length : Int)) * u
    generalize (digitsOf ((u - 1) / v)).length = length at hlow hhigh hlength
    have hfirst : (1 - (length : Int)) - 1 = -(length : Int) := by omega
    have hsecond : 1 - (length : Int) = -((length - 1 : Nat) : Int) := by omega
    rw [hfirst, hsecond, zpow_neg, zpow_neg, zpow_natCast, zpow_natCast,
      inv_mul_le_iff₀ (by positivity), lt_inv_mul_iff₀ (by positivity)]
    exact ⟨by exact_mod_cast (by omega : u ≤ 10 ^ length * v),
      by exact_mod_cast (by omega : 10 ^ (length - 1) * v < u)⟩

def step (exponent : Int) : ℚ := 10 ^ exponent * unit

theorem step_pos (exponent : Int) : 0 < step exponent := mul_pos (by positivity) unit_pos

theorem Decimal.value_mul_unit (n : Nat) (e : Int) : (Decimal.mk n e).value * unit = n * step e :=
  mul_assoc _ _ _

namespace Interval
variable {i : Interval} {tie : Nat → Nat} {S C n : Nat}

structure IsProper (i : Interval) : Prop where
  low_lt : i.low < i.value
  lt_high : i.value < i.high

def contains (i : Interval) (S C n : Nat) : Bool :=
  if i.closed then i.low * C ≤ n * S && n * S ≤ i.high * C
  else i.low * C < n * S && n * S < i.high * C

theorem contains_of_lt (hlow : i.low * C < n * S) (hhigh : n * S < i.high * C) :
    i.contains S C n = true := by
  unfold contains
  split <;> simp only [Bool.and_eq_true, decide_eq_true_eq] <;> omega

theorem le_of_contains (h : i.contains S C n = true) :
    i.low * C ≤ n * S ∧ n * S ≤ i.high * C := by
  unfold contains at h
  split at h <;> simp only [Bool.and_eq_true, decide_eq_true_eq] at h <;> omega

def pick (i : Interval) (tie : Nat → Nat) (S C : Nat) : Option Nat :=
  let below := i.value * C / S
  let rest := i.value * C % S
  match i.contains S C below, i.contains S C (below + 1) with
  | true, true =>
    some (if 2 * rest < S then below else if S < 2 * rest then below + 1 else tie below)
  | true, false => some below
  | false, true => some (below + 1)
  | false, false => none

theorem pick_eq_some (htie : ∀ n, tie n = n ∨ tie n = n + 1) (h : i.pick tie S C = some n) :
    (n = i.value * C / S ∨ n = i.value * C / S + 1) ∧ i.contains S C n = true := by
  unfold pick at h
  dsimp only at h
  generalize i.value * C / S = below at h ⊢
  cases hbelow : i.contains S C below <;> cases habove : i.contains S C (below + 1) <;>
    rw [hbelow, habove] at h <;> cases h
  · exact ⟨.inr rfl, habove⟩
  · exact ⟨.inl rfl, hbelow⟩
  · split
    · exact ⟨.inl rfl, hbelow⟩
    · split
      · exact ⟨.inr rfl, habove⟩
      · rcases htie below with htie | htie <;> rw [htie]
        · exact ⟨.inl rfl, hbelow⟩
        · exact ⟨.inr rfl, habove⟩

/-- A value that is a whole number of steps is picked itself. -/
theorem pick_of_dvd (hi : i.IsProper) (hC : 0 < C) (hS : 0 < S) (h : S ∣ i.value * C) :
    i.pick tie S C = some (i.value * C / S) := by
  have hwhole : i.value * C / S * S = i.value * C := Nat.div_mul_cancel h
  have hcontains : i.contains S C (i.value * C / S) = true := by
    refine contains_of_lt ?_ ?_ <;> rw [hwhole]
    · exact Nat.mul_lt_mul_of_pos_right hi.low_lt hC
    · exact Nat.mul_lt_mul_of_pos_right hi.lt_high hC
  unfold pick
  dsimp only
  rw [hcontains, Nat.mod_eq_zero_of_dvd h]
  split
  · rw [if_pos (by omega)]
  · rfl
  · next heq _ => cases heq
  · next heq _ => cases heq

/-- Where the bounds are more than a step apart, there is a multiple to pick. -/
theorem exists_pick_eq_some (hi : i.IsProper) (hC : 0 < C) (hS : 0 < S)
    (hwide : i.low * C + S < i.high * C) : ∃ n, i.pick tie S C = some n := by
  have hlow : i.low * C < i.value * C := Nat.mul_lt_mul_of_pos_right hi.low_lt hC
  have hhigh : i.value * C < i.high * C := Nat.mul_lt_mul_of_pos_right hi.lt_high hC
  have hbelow : i.value * C / S * S ≤ i.value * C := Nat.div_mul_le_self _ _
  have habove : i.value * C < (i.value * C / S + 1) * S :=
    Nat.lt_mul_of_div_lt (Nat.lt_succ_self _) hS
  have hcontains : i.contains S C (i.value * C / S) = true ∨
      i.contains S C (i.value * C / S + 1) = true := by
    rcases Nat.lt_or_ge (i.low * C) (i.value * C / S * S) with h | h
    · exact .inl (contains_of_lt h (by omega))
    · refine .inr (contains_of_lt (by omega) ?_)
      rw [Nat.succ_mul]
      omega
  unfold pick
  dsimp only
  rcases hcontains with h | h <;> rw [h] <;> split <;> simp_all

theorem onGrid?_eq_pick (i : Interval) (tie : Nat → Nat) (e : Int) :
    ∃ S C : Nat, 0 < S ∧ 0 < C ∧ (S : ℚ) = step e * C ∧ i.onGrid? tie e = i.pick tie S C := by
  have hpow : ∀ k, 0 < Nat.pow 10 k := fun k => Nat.pow_pos (by decide)
  have hunit : 0 < 2 * one := Nat.mul_pos Nat.two_pos one_pos
  refine ⟨if 0 ≤ e then 2 * one * Nat.pow 10 e.toNat else 2 * one,
    if 0 ≤ e then 1 else Nat.pow 10 e.natAbs, ?_, ?_, ?_, rfl⟩
  · split
    · exact Nat.mul_pos hunit (hpow _)
    · exact hunit
  · split
    · exact Nat.one_pos
    · exact hpow _
  · rw [step, unit_eq_cast]
    -- the unit is kept symbolic, so that nothing computes its power of two
    generalize 2 * one = u
    split
    · next h =>
      obtain ⟨k, rfl⟩ := Int.eq_ofNat_of_zero_le h
      rw [Int.toNat_natCast, zpow_natCast, Nat.pow_eq]
      push_cast
      ring
    · next h =>
      obtain ⟨k, rfl⟩ : ∃ k : Nat, e = -k := ⟨e.natAbs, by omega⟩
      rw [Int.natAbs_neg, Int.natAbs_natCast, zpow_neg, zpow_natCast, Nat.pow_eq]
      push_cast
      field_simp

variable {e : Int}

/-- What is found on a grid lies between the bounds, and less than a step from the value. -/
theorem onGrid?_eq_some (htie : ∀ n, tie n = n ∨ tie n = n + 1) (h : i.onGrid? tie e = some n) :
    (i.low ≤ n * step e ∧ n * step e ≤ i.high) ∧
      (i.value : ℚ) < (n + 1) * step e ∧ n * step e ≤ i.value + step e := by
  obtain ⟨S, C, hS, hC, hstep, hpick⟩ := i.onGrid?_eq_pick tie e
  obtain ⟨hn, hcontains⟩ := pick_eq_some htie (hpick ▸ h)
  obtain ⟨hlow, hhigh⟩ := le_of_contains hcontains
  have hbelow : n * S ≤ i.value * C + S := by
    have := Nat.div_mul_le_self (i.value * C) S
    rcases hn with rfl | rfl
    · omega
    · rw [Nat.succ_mul]
      omega
  have habove : i.value * C < (n + 1) * S :=
    Nat.lt_mul_of_div_lt (by omega) hS
  have hCq : (0 : ℚ) < C := Nat.cast_pos.2 hC
  have hscale : ∀ a : ℚ, a * S = a * step e * C := fun a => by rw [hstep, mul_assoc]
  refine ⟨⟨?_, ?_⟩, ?_, ?_⟩
  · refine le_of_mul_le_mul_right ?_ hCq
    rw [← hscale]
    exact_mod_cast hlow
  · refine le_of_mul_le_mul_right ?_ hCq
    rw [← hscale]
    exact_mod_cast hhigh
  · refine lt_of_mul_lt_mul_right ?_ hCq.le
    rw [← hscale]
    exact_mod_cast habove
  · refine le_of_mul_le_mul_right ?_ hCq
    rw [add_mul, ← hscale, ← hstep]
    exact_mod_cast hbelow

/-- A value on the grid is found itself. -/
theorem onGrid?_of_eq (hi : i.IsProper) (h : (i.value : ℚ) = n * step e) :
    i.onGrid? tie e = some n := by
  obtain ⟨S, C, hS, hC, hstep, hpick⟩ := i.onGrid?_eq_pick tie e
  have hwhole : i.value * C = n * S := by
    have hq : (i.value : ℚ) * C = n * S := by rw [h, hstep, mul_assoc]
    exact_mod_cast hq
  rw [hpick, pick_of_dvd hi hC hS ⟨n, by rw [hwhole, Nat.mul_comm]⟩, hwhole,
    Nat.mul_div_cancel _ hS]

theorem exists_onGrid? (hi : i.IsProper) (h : (i.low : ℚ) + step e < i.high) :
    ∃ n, i.onGrid? tie e = some n := by
  obtain ⟨S, C, hS, hC, hstep, hpick⟩ := i.onGrid?_eq_pick tie e
  have hCq : (0 : ℚ) < C := Nat.cast_pos.2 hC
  have hwide : i.low * C + S < i.high * C := by
    have hq : (i.low : ℚ) * C + S < i.high * C := by
      rw [hstep, ← add_mul]
      exact mul_lt_mul_of_pos_right h hCq
    exact_mod_cast hq
  rw [hpick]
  exact exists_pick_eq_some hi hC hS hwide

end Interval

end TableQuery.Binary64
