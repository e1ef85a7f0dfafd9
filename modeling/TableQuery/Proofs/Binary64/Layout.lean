import Mathlib.Algebra.Order.Floor.Semifield
import TableQuery.Binary64.Layout
import TableQuery.Proofs.Binary64.Shortest

/-! The form in which JSON writes a value. It is scientific for values outside a range, and a
digit is all that stands in front of the point then. Inside the range it is the whole part. -/
namespace TableQuery.Binary64
open TableQuery.Text

def Decimal.place (d : Decimal) : Int := (digitsOf d.digits).length + d.exponent

section
variable {d : Decimal}

theorem Decimal.value_bounds (h : 0 < d.digits) :
    10 ^ (d.place - 1) ≤ d.value ∧ d.value < 10 ^ d.place := by
  have hlow := pow_length_digitsOf_le h
  have hhigh := lt_pow_length_digitsOf d.digits
  have hlength : 1 ≤ (digitsOf d.digits).length := Nat.length_toDigits_pos
  have hplace : d.place - 1 = ((digitsOf d.digits).length - 1 : Nat) + d.exponent := by
    rw [place]
    omega
  have hpow : (0 : ℚ) < 10 ^ d.exponent := by positivity
  rw [hplace, place, zpow_add₀ (by norm_num), zpow_add₀ (by norm_num), zpow_natCast, zpow_natCast]
  constructor
  · exact mul_le_mul_of_nonneg_right (by exact_mod_cast hlow) hpow.le
  · exact mul_lt_mul_of_pos_right (by exact_mod_cast hhigh) hpow

theorem Decimal.le_value_iff (h : 0 < d.digits) (k : Int) : 10 ^ k ≤ d.value ↔ k < d.place := by
  obtain ⟨hlow, hhigh⟩ := Decimal.value_bounds h
  constructor
  · intro hk
    exact (zpow_lt_zpow_iff_right₀ (by norm_num)).1 (lt_of_le_of_lt hk hhigh)
  · intro hk
    exact le_trans (zpow_le_zpow_right₀ (by norm_num) (by omega)) hlow

end

section
variable {m : Nat} {d : Decimal}

/-- A power of ten just before or at some magnitude parts the values and their decimals alike. -/
theorem IsShortened.pow_le_iff (hd : IsShortened m d) (h : 0 < m) {k : Int} {K : Nat}
    (hbefore : (unitsOf (K - 1) + unitsOf K : Nat) < 10 ^ k * unit)
    (hK : step k ≤ (2 * unitsOf K : Nat)) : 10 ^ k ≤ d.value ↔ step k ≤ (intervalOf m).value := by
  constructor
  · intro hle
    by_contra hlt
    have hunits : 2 * unitsOf m < 2 * unitsOf K := by
      have hcast := lt_of_lt_of_le (not_le.1 hlt) hK
      exact_mod_cast hcast
    have hmK : m < K := unitsOf_strictMono.lt_iff_lt.1 (by omega)
    exact absurd hle (not_le.2 (hd.lt_of_lt hmK hbefore))
  · exact hd.pow_le h

def IsScientific (m : Nat) : Prop :=
  0 < unitsOf m ∧ unitsOf m * 100000 < one ∨ 10000000000000000 * one ≤ unitsOf m

instance (m : Nat) : Decidable (IsScientific m) := inferInstanceAs (Decidable (_ ∨ _))

theorem IsShortened.small_iff (hd : IsShortened m d) (h : 0 < m) :
    10 ^ (-5 : Int) ≤ d.value ↔ one ≤ unitsOf m * 100000 := by
  have hpow : (10 : ℚ) ^ (-5 : Int) * 100000 = 1 := by norm_num
  have hscale : ∀ n : Nat, step (-5) ≤ (n : ℚ) ↔ 2 * one ≤ n * 100000 := by
    intro n
    rw [step, unit_eq_cast, ← mul_le_mul_iff_left₀ (by norm_num : (0 : ℚ) < 100000),
      mul_right_comm, hpow, one_mul]
    exact_mod_cast Iff.rfl
  have hbefore : ((unitsOf (0x3EE4F8B588E368F1 - 1) + unitsOf 0x3EE4F8B588E368F1 : Nat) : ℚ) <
      10 ^ (-5 : Int) * unit := by
    rw [← not_le, ← step, hscale]
    decide +kernel
  rw [hd.pow_le_iff h hbefore ((hscale _).2 (by decide +kernel)), hscale, intervalOf]
  dsimp only
  omega

theorem IsShortened.great_iff (hd : IsShortened m d) (h : 0 < m) :
    10 ^ (16 : Int) ≤ d.value ↔ 10000000000000000 * one ≤ unitsOf m := by
  have hscale : ∀ n : Nat, step 16 ≤ (n : ℚ) ↔ 10000000000000000 * (2 * one) ≤ n := by
    intro n
    have hpow : (10 : ℚ) ^ (16 : Int) = (10000000000000000 : Nat) := by norm_num
    rw [step, unit_eq_cast, hpow]
    exact_mod_cast Iff.rfl
  have hbefore : ((unitsOf (0x4341C37937E08000 - 1) + unitsOf 0x4341C37937E08000 : Nat) : ℚ) <
      10 ^ (16 : Int) * unit := by
    rw [← not_le, ← step, hscale]
    decide +kernel
  rw [hd.pow_le_iff h hbefore ((hscale _).2 (by decide +kernel)), hscale, intervalOf]
  dsimp only
  omega

theorem IsShortened.isScientific_iff (hd : IsShortened m d) (h : 0 < m) :
    d.place < -4 ∨ 16 < d.place ↔ IsScientific m := by
  have hsmall := (Decimal.le_value_iff hd.digits_pos (-5)).symm.trans (hd.small_iff h)
  have hgreat := (Decimal.le_value_iff hd.digits_pos 16).symm.trans (hd.great_iff h)
  have hpos := unitsOf_pos h
  rw [IsScientific]
  omega

end

section
variable {d : Decimal}

def pointed (digits : List Char) (place : Int) : List Char :=
  if digits.length ≤ place then positional digits place ++ ".0".toList else positional digits place

/-- In front of the point stands the whole part. -/
theorem begins_pointed (h : 0 < d.digits) :
    Begins (pointed (digitsOf d.digits) d.place) ⌊d.value⌋₊ := by
  have hdigits : ∀ c ∈ digitsOf d.digits, c.isDigit = true := fun _ => isDigit_of_mem_digitsOf
  have hlength : 1 ≤ (digitsOf d.digits).length := Nat.length_toDigits_pos
  obtain ⟨-, hvalue⟩ := Decimal.value_bounds h
  have hplace : d.place = (digitsOf d.digits).length + d.exponent := rfl
  unfold pointed positional
  by_cases hzero : d.place ≤ 0
  · rw [if_neg (by omega), if_pos hzero]
    have hfloor : ⌊d.value⌋₊ = 0 :=
      Nat.floor_eq_zero.2 (lt_of_lt_of_le hvalue (zpow_le_one_of_nonpos₀ (by norm_num) hzero))
    rw [hfloor]
    exact begins_zero _
  · rw [if_neg hzero]
    by_cases hwhole : (digitsOf d.digits).length ≤ d.place
    · rw [if_pos hwhole, if_pos hwhole]
      obtain ⟨k, hk⟩ : ∃ k : Nat, d.exponent = k := Int.eq_ofNat_of_zero_le (by omega)
      have hzeros : d.place.toNat - (digitsOf d.digits).length = k := by omega
      have hfloor : ⌊d.value⌋₊ =
          ofDigits (digitsOf d.digits ++ List.replicate k '0') := by
        have hnat : d.value = (d.digits * 10 ^ k : Nat) := by
          rw [Decimal.value, hk, zpow_natCast]
          push_cast
          rfl
        rw [hnat, Nat.floor_natCast, ofDigits_append, ofDigits_replicate_zero, ofDigits_digitsOf,
          List.length_replicate, Nat.add_zero, Nat.mul_comm]
      rw [hzeros, hfloor]
      refine begins_append ?_ (by simp [digitsOf_ne_nil]) (by decide)
      intro c hc
      cases List.mem_append.1 hc with
      | inl hc => exact hdigits c hc
      | inr hc =>
        rw [List.eq_of_mem_replicate hc]
        decide
    · rw [if_neg hwhole, if_neg hwhole]
      obtain ⟨k, hk⟩ : ∃ k : Nat, d.exponent = -k := ⟨d.exponent.natAbs, by omega⟩
      have hbehind : (digitsOf d.digits).length - d.place.toNat = k := by omega
      have hfloor : ⌊d.value⌋₊ = ofDigits ((digitsOf d.digits).take d.place.toNat) := by
        rw [Decimal.value, hk, zpow_neg, zpow_natCast, ← div_eq_mul_inv, ofDigits_take_digitsOf,
          hbehind]
        exact_mod_cast Nat.floor_div_eq_div (K := ℚ) d.digits (10 ^ k)
      rw [hfloor]
      refine begins_append (fun c hc => hdigits c (List.mem_of_mem_take hc)) ?_ (by decide)
      rw [ne_eq, List.take_eq_nil_iff]
      simp only [digitsOf_ne_nil, or_false]
      omega

/-- In front of the point of the scientific form stands one digit, which is not zero. -/
theorem begins_scientific (h : 0 < d.digits) (place : Int) :
    ∃ n, 1 ≤ n ∧ n ≤ 9 ∧ Begins (scientific (digitsOf d.digits) place) n := by
  have hlow := pow_length_digitsOf_le h
  have hhigh := lt_pow_length_digitsOf d.digits
  have hfirst := ofDigits_take_digitsOf d.digits 1
  have hdigits : ∀ c ∈ digitsOf d.digits, c.isDigit = true := fun _ => isDigit_of_mem_digitsOf
  have hlength : 1 ≤ (digitsOf d.digits).length := Nat.length_toDigits_pos
  refine ⟨d.digits / 10 ^ ((digitsOf d.digits).length - 1), ?_, ?_, ?_⟩
  · exact Nat.div_pos hlow (Nat.pow_pos (by decide))
  · rw [← Nat.lt_succ_iff, Nat.div_lt_iff_lt_mul (Nat.pow_pos (by decide)), ← Nat.pow_succ']
    rwa [Nat.succ_eq_add_one, Nat.succ_eq_add_one, Nat.sub_add_cancel hlength]
  · rw [← hfirst]
    unfold scientific
    cases hs : digitsOf d.digits with
    | nil => exact absurd hs (digitsOf_ne_nil _)
    | cons c rest =>
      have hc : ∀ b ∈ [c], b.isDigit = true := by
        rw [hs] at hdigits
        simpa using hdigits c List.mem_cons_self
      cases rest with
      | nil => exact begins_append hc (List.cons_ne_nil _ _) (by decide)
      | cons c' rest => exact begins_append hc (List.cons_ne_nil _ _) (by decide)

end

theorem unitsOf_zero : unitsOf 0 = 0 := unitsOf_of_lt (by decide)

theorem not_isScientific_zero : ¬ IsScientific 0 := by
  have hone := one_pos
  rw [IsScientific, unitsOf_zero]
  omega

/-- A value that is not scientific is less than 2^54, where the shortest decimal keeps the whole
part. -/
theorem unitsOf_lt_of_not_isScientific {m : Nat} (hpos : 0 < m) (h : ¬ IsScientific m) :
    unitsOf m < 2 ^ 54 * one := by
  have hone := one_pos
  have hunits := unitsOf_pos hpos
  rw [IsScientific] at h
  omega

section
variable {x : Binary64}

theorem jsonText?_of_isZero (h : x.magnitude = 0) :
    x.jsonText? = some (signed x.negative "0.0".toList) := by
  have hfinite : (x.isNaN || x.isInfinite) = false := by
    rw [isNaN, isInfinite, h]
    decide
  have hzero : x.isZero = true := by rw [isZero, h, beq_self_eq_true]
  rw [jsonText?, hfinite, hzero, if_neg Bool.false_ne_true, if_pos rfl]

theorem jsonText?_of_pos (hpos : 0 < x.magnitude) (h : x.magnitude < infinite) :
    ∃ d, d = shortest (fun n => n + n % 2) x.magnitude ∧
      x.jsonText? = some (signed x.negative
        (if d.place < -4 ∨ 16 < d.place then scientific (digitsOf d.digits) d.place
        else pointed (digitsOf d.digits) d.place)) := by
  have hfinite : (x.isNaN || x.isInfinite) = false := by
    rw [isNaN, isInfinite, Bool.or_eq_false_iff, decide_eq_false_iff_not, beq_eq_false_iff_ne]
    omega
  have hzero : x.isZero = false := beq_false_of_ne (Nat.ne_of_gt hpos)
  refine ⟨_, rfl, ?_⟩
  rw [jsonText?, hfinite, hzero, if_neg Bool.false_ne_true, if_neg Bool.false_ne_true]
  rfl

/-- The form of a finite value begins with its whole part, or with a single digit if it is
scientific. -/
theorem exists_jsonText? (h : x.magnitude < infinite) :
    ∃ s, x.jsonText? = some (signed x.negative s) ∧
      (IsScientific x.magnitude → ∃ n, 1 ≤ n ∧ n ≤ 9 ∧ Begins s n) ∧
      (¬ IsScientific x.magnitude → Begins s (unitsOf x.magnitude / one)) := by
  rcases Nat.eq_zero_or_pos x.magnitude with hzero | hpos
  · refine ⟨_, jsonText?_of_isZero hzero, ?_, ?_⟩
    · rw [hzero]
      exact fun hscientific => absurd hscientific not_isScientific_zero
    · rw [hzero, unitsOf_zero, Nat.zero_div]
      exact fun _ => begins_zero _
  · have htie : ∀ n, n + n % 2 = n ∨ n + n % 2 = n + 1 := by omega
    obtain ⟨d, hd, htext⟩ := jsonText?_of_pos hpos h
    have hshort : IsShortened x.magnitude d := hd ▸ isShortened_shortest htie hpos
    refine ⟨_, htext, ?_, ?_⟩
    · intro hscientific
      rw [if_pos ((hshort.isScientific_iff hpos).2 hscientific)]
      exact begins_scientific hshort.digits_pos _
    · intro hpositional
      have hlt := unitsOf_lt_of_not_isScientific hpos hpositional
      rw [if_neg (mt (hshort.isScientific_iff hpos).1 hpositional),
        ← floor_value_shortest htie hpos hlt, ← hd]
      exact begins_pointed hshort.digits_pos

end

end TableQuery.Binary64
