import TableQuery.Binary64.Rounding
import TableQuery.Proofs.Binary64.Units

/-! Rounding keeps the side of every representable value: a quotient that is not above one is not
rounded to above it, and one that is not below is not rounded to below it. -/
namespace TableQuery.Binary64
variable {n d k : Nat}

theorem le_roundQuotient_of_mul_le {j D : Nat} (hD : 0 < D) (h : j * D ≤ n) :
    j ≤ roundQuotient n D := by
  have hquotient : j ≤ n / D := (Nat.le_div_iff_mul_le hD).2 h
  unfold roundQuotient
  dsimp only
  split
  · exact hquotient
  · split <;> omega

theorem roundQuotient_le_of_le_mul {j D : Nat} (hD : 0 < D) (h : n ≤ j * D) :
    roundQuotient n D ≤ j := by
  rcases Nat.lt_or_ge (n / D) j with hlt | hge
  · unfold roundQuotient
    dsimp only
    split
    · omega
    · split <;> omega
  · -- the quotient is whole, so that there is nothing to round
    have hexact : n = j * D := Nat.le_antisymm h ((Nat.le_div_iff_mul_le hD).1 hge)
    have hrest : n % D = 0 := by rw [hexact, Nat.mul_mod_left]
    have hquotient : n / D = j := by rw [hexact, Nat.mul_div_cancel _ hD]
    unfold roundQuotient
    dsimp only
    rw [hrest, hquotient, if_pos (by omega)]

theorem roundQuotient_bounds (n D : Nat) :
    n / D ≤ roundQuotient n D ∧ roundQuotient n D ≤ n / D + 1 := by
  unfold roundQuotient
  dsimp only
  split
  · omega
  · split <;> omega

theorem roundQuotient_mono {n' D : Nat} (h : n ≤ n') : roundQuotient n D ≤ roundQuotient n' D := by
  have hquotient : n / D ≤ n' / D := Nat.div_le_div_right h
  rcases Nat.lt_or_eq_of_le hquotient with hlt | heq
  · have hleft := (roundQuotient_bounds n D).2
    have hright := (roundQuotient_bounds n' D).1
    omega
  · have hrest : n % D ≤ n' % D := by
      have hn := Nat.div_add_mod n D
      have hn' := Nat.div_add_mod n' D
      rw [heq] at hn
      omega
    unfold roundQuotient
    dsimp only
    rw [heq]
    repeat' split
    all_goals omega

def binadeOf (q : Nat) : Nat := if q < 2 * binade then 0 else q.log2 - 52

theorem binadeOf_bounds (q : Nat) :
    (binadeOf q = 0 ∨ binade * 2 ^ binadeOf q ≤ q) ∧ q < 2 * binade * 2 ^ binadeOf q := by
  unfold binadeOf
  split
  · next h => exact ⟨.inl rfl, by simpa using h⟩
  · next h =>
    have hq : 2 ^ 53 ≤ q := Nat.not_lt.1 h
    have hne : q ≠ 0 := by
      rintro rfl
      exact absurd hq (by decide)
    have hlog : 53 ≤ q.log2 := (Nat.le_log2 hne).2 hq
    have hbinade : binade = 2 ^ 52 := by decide
    refine ⟨.inr ?_, ?_⟩
    · rw [hbinade, ← Nat.pow_add, Nat.add_sub_cancel' (by omega)]
      exact Nat.log2_self_le hne
    · have hdouble : 2 * binade = 2 ^ 53 := by decide
      have hexponent : 53 + (q.log2 - 52) = q.log2 + 1 := by omega
      rw [hdouble, ← Nat.pow_add, hexponent]
      exact Nat.lt_log2_self

theorem nearest_eq (n d : Nat) : nearest n d =
    min (roundQuotient n (d * 2 ^ binadeOf (n / d)) + binadeOf (n / d) * binade) infinite := by
  rw [← Nat.shiftLeft_eq]
  rfl

theorem nearest_le_infinite (n d : Nat) : nearest n d ≤ infinite := Nat.min_le_right _ _

/-- A magnitude that reaches its binade is so many spacings of it above the binades before. -/
theorem eq_place {s : Nat} (h : s = 0 ∨ s * binade + binade ≤ k)
    (hk : k ≤ s * binade + 2 * binade) :
    ∃ j, k = s * binade + j ∧ unitsOf k = j * 2 ^ s := by
  have hle : s * binade ≤ k := by
    rcases h with rfl | h
    · omega
    · omega
  obtain ⟨j, rfl⟩ := Nat.exists_eq_add_of_le hle
  exact ⟨j, rfl, unitsOf_place (h.imp_right Nat.le_of_add_le_add_left)
    (Nat.le_of_add_le_add_left hk)⟩

theorem le_nearest (hd : 0 < d) (hk : k ≤ infinite) (h : unitsOf k * d ≤ n) : k ≤ nearest n d := by
  rw [nearest_eq]
  refine Nat.le_min.2 ⟨?_, hk⟩
  obtain ⟨hlow, hhigh⟩ := binadeOf_bounds (n / d)
  have hunits : unitsOf k ≤ n / d := (Nat.le_div_iff_mul_le hd).2 h
  generalize binadeOf (n / d) = s at hlow hhigh
  have hD : 0 < d * 2 ^ s := Nat.mul_pos hd (Nat.two_pow_pos s)
  have hbound : k < s * binade + 2 * binade := by
    refine unitsOf_strictMono.lt_iff_lt.1 (Nat.lt_of_le_of_lt hunits ?_)
    rwa [unitsOf_place (.inr (by omega)) (Nat.le_refl _)]
  by_cases hplace : s = 0 ∨ s * binade + binade ≤ k
  · obtain ⟨j, hj, hvalue⟩ := eq_place hplace (Nat.le_of_lt hbound)
    have hround : j ≤ roundQuotient n (d * 2 ^ s) := by
      refine le_roundQuotient_of_mul_le hD ?_
      rwa [hvalue, Nat.mul_assoc, Nat.mul_comm (2 ^ s)] at h
    omega
  · -- the quotient is in a higher binade
    rw [not_or, Nat.not_le] at hplace
    have hround : binade ≤ roundQuotient n (d * 2 ^ s) := by
      refine le_roundQuotient_of_mul_le hD ?_
      have hmul := (Nat.le_div_iff_mul_le hd).1 (hlow.resolve_left hplace.1)
      rwa [Nat.mul_assoc, Nat.mul_comm (2 ^ s)] at hmul
    omega

theorem nearest_le (hd : 0 < d) (h : n ≤ unitsOf k * d) : nearest n d ≤ k := by
  rw [nearest_eq]
  refine Nat.le_trans (Nat.min_le_left _ _) ?_
  obtain ⟨hlow, hhigh⟩ := binadeOf_bounds (n / d)
  have hunits : n / d ≤ unitsOf k := Nat.div_le_of_le_mul (by rwa [Nat.mul_comm] at h)
  generalize binadeOf (n / d) = s at hlow hhigh
  have hD : 0 < d * 2 ^ s := Nat.mul_pos hd (Nat.two_pow_pos s)
  rcases Nat.le_total (s * binade + 2 * binade) k with hbound | hbound
  · have hround : roundQuotient n (d * 2 ^ s) ≤ 2 * binade := by
      refine roundQuotient_le_of_le_mul hD ?_
      have hmul := (Nat.div_lt_iff_lt_mul hd).1 hhigh
      rw [Nat.mul_assoc, Nat.mul_comm (2 ^ s)] at hmul
      exact Nat.le_of_lt hmul
    omega
  · have hplace : s = 0 ∨ s * binade + binade ≤ k := by
      refine hlow.imp_right fun hlow => unitsOf_le_iff.1 ?_
      rw [unitsOf_place (.inr (Nat.le_refl _)) (by omega)]
      exact Nat.le_trans hlow hunits
    obtain ⟨j, hj, hvalue⟩ := eq_place hplace hbound
    have hround : roundQuotient n (d * 2 ^ s) ≤ j := by
      refine roundQuotient_le_of_le_mul hD ?_
      rwa [hvalue, Nat.mul_assoc, Nat.mul_comm (2 ^ s)] at h
    omega

/-- A greater quotient is not rounded to less. -/
theorem nearest_mono {n' : Nat} (hd : 0 < d) (h : n ≤ n') : nearest n d ≤ nearest n' d := by
  have hquotient : n / d ≤ n' / d := Nat.div_le_div_right h
  obtain ⟨hlow, hhigh⟩ := binadeOf_bounds (n / d)
  obtain ⟨hlow', hhigh'⟩ := binadeOf_bounds (n' / d)
  rcases Nat.lt_trichotomy (binadeOf (n / d)) (binadeOf (n' / d)) with hlt | heq | hgt
  · -- the least magnitude of the next binade is between the two
    generalize binadeOf (n / d) = s at hhigh hlt
    generalize binadeOf (n' / d) = s' at hlow' hlt
    have hunits : unitsOf (s * binade + 2 * binade) = 2 * binade * 2 ^ s :=
      unitsOf_place (.inr (by omega)) (Nat.le_refl _)
    have hbelow : n ≤ unitsOf (s * binade + 2 * binade) * d := by
      rw [hunits]
      exact Nat.le_of_lt ((Nat.div_lt_iff_lt_mul hd).1 hhigh)
    have habove : unitsOf (s * binade + 2 * binade) * d ≤ n' := by
      have hpow : 2 * 2 ^ s ≤ 2 ^ s' := by
        rw [← Nat.pow_succ']
        exact Nat.pow_le_pow_right (by decide) hlt
      have hstart : binade * 2 ^ s' ≤ n' / d := hlow'.resolve_left (by omega)
      rw [hunits, Nat.mul_comm 2, Nat.mul_assoc binade]
      exact (Nat.le_div_iff_mul_le hd).1 (Nat.le_trans (Nat.mul_le_mul_left _ hpow) hstart)
    have hleft := nearest_le hd hbelow
    have hclosed : unitsOf (min (s * binade + 2 * binade) infinite) * d ≤ n' :=
      Nat.le_trans (Nat.mul_le_mul_right _ (unitsOf_le_iff.2 (Nat.min_le_left _ _))) habove
    exact Nat.le_trans (Nat.le_min.2 ⟨hleft, nearest_le_infinite _ _⟩)
      (le_nearest hd (Nat.min_le_right _ _) hclosed)
  · rw [nearest_eq, nearest_eq, heq]
    have hround := roundQuotient_mono (D := d * 2 ^ binadeOf (n' / d)) h
    refine Nat.le_min.2 ⟨?_, Nat.min_le_right _ _⟩
    exact Nat.le_trans (Nat.min_le_left _ _) (Nat.add_le_add_right hround _)
  · have hstart : binade * 2 ^ binadeOf (n / d) ≤ n / d := hlow.resolve_left (by omega)
    have hpow : 2 * 2 ^ binadeOf (n' / d) ≤ 2 ^ binadeOf (n / d) := by
      rw [← Nat.pow_succ']
      exact Nat.pow_le_pow_right (by decide) hgt
    have hend := Nat.mul_le_mul_left binade hpow
    rw [← Nat.mul_assoc, Nat.mul_comm binade 2] at hend
    omega

section
variable {i : Int} {x : Binary64}

theorem isNaN_ofInteger (i : Int) : (ofInteger i).isNaN = false :=
  decide_eq_false (Nat.not_lt.2 (nearest_le_infinite _ _))

theorem magnitude_le_infinite (hx : x.isNaN = false) : x.magnitude ≤ infinite :=
  Nat.not_lt.1 (of_decide_eq_false hx)

theorem mul_one_eq (i : Int) :
    i * one = if i < 0 then -((i.natAbs * one : Nat) : Int) else (i.natAbs * one : Nat) := by
  rw [Int.natCast_mul]
  split
  · next h => rw [Int.ofNat_natAbs_of_nonpos (Int.le_of_lt h), Int.neg_mul, Int.neg_neg]
  · next h => rw [Int.natAbs_of_nonneg (Int.not_lt.1 h)]

theorem units_ofInteger (i : Int) :
    (ofInteger i).units =
      if i < 0 then -(unitsOf (nearest (i.natAbs * one) 1) : Int)
      else unitsOf (nearest (i.natAbs * one) 1) := by
  by_cases h : i < 0 <;> simp [ofInteger, ofQuotient, nearestSigned, units, h]

theorem units_ofInteger_mono {j : Int} (h : i ≤ j) :
    (ofInteger i).units ≤ (ofInteger j).units := by
  have hnatural : ∀ {a b : Nat}, a ≤ b →
      unitsOf (nearest (a * one) 1) ≤ unitsOf (nearest (b * one) 1) := fun hle =>
    unitsOf_le_iff.2 (nearest_mono Nat.one_pos (Nat.mul_le_mul_right one hle))
  have hpositive : 0 ≤ i → unitsOf (nearest (i.natAbs * one) 1) ≤
      unitsOf (nearest (j.natAbs * one) 1) := fun hi => hnatural (by omega)
  have hnegative : j < 0 → unitsOf (nearest (j.natAbs * one) 1) ≤
      unitsOf (nearest (i.natAbs * one) 1) := fun hj => hnatural (by omega)
  rw [units_ofInteger, units_ofInteger]
  generalize unitsOf (nearest (i.natAbs * one) 1) = a at hpositive hnegative ⊢
  generalize unitsOf (nearest (j.natAbs * one) 1) = b at hpositive hnegative ⊢
  by_cases hi : i < 0 <;> by_cases hj : j < 0 <;> simp only [hi, hj, if_true, if_false] <;> omega

/-- A rounded integer is on the same side of a float as the integer, or else it is the float. -/
theorem keepsSide_ofInteger (i : Int) (hx : x.isNaN = false) :
    (x.units ≤ i * one → x.units ≤ (ofInteger i).units) ∧
      (i * one ≤ x.units → (ofInteger i).units ≤ x.units) := by
  have hlow : unitsOf x.magnitude ≤ i.natAbs * one →
      unitsOf x.magnitude ≤ unitsOf (nearest (i.natAbs * one) 1) := fun hle =>
    unitsOf_le_iff.2 (le_nearest Nat.one_pos (magnitude_le_infinite hx) (by rwa [Nat.mul_one]))
  have hhigh : i.natAbs * one ≤ unitsOf x.magnitude →
      unitsOf (nearest (i.natAbs * one) 1) ≤ unitsOf x.magnitude := fun hle =>
    unitsOf_le_iff.2 (nearest_le Nat.one_pos (by rwa [Nat.mul_one]))
  rw [mul_one_eq, units_ofInteger, units]
  generalize i.natAbs * one = a at hlow hhigh ⊢
  cases x.negative with
  | true => by_cases hi : i < 0 <;> simp only [hi, if_true, if_false] <;> omega
  | false =>
    by_cases hi : i < 0 <;> simp only [hi, if_true, if_false, Bool.false_eq_true] <;> omega

end

/-- A quotient that is a value is rounded to itself. -/
theorem nearest_unitsOf (hd : 0 < d) (hk : k ≤ infinite) : nearest (unitsOf k * d) d = k :=
  Nat.le_antisymm (nearest_le hd (Nat.le_refl _)) (le_nearest hd hk (Nat.le_refl _))

/-- An integer of 53 bits is not rounded at all. -/
theorem units_ofInteger_of_le {i : Int} (h : i.natAbs ≤ 2 * binade) :
    (ofInteger i).units = i * one := by
  obtain ⟨k, hk, hvalue⟩ := exists_unitsOf_eq h
  have hnearest := nearest_unitsOf Nat.one_pos hk
  rw [Nat.mul_one, hvalue] at hnearest
  rw [units_ofInteger, hnearest, hvalue, mul_one_eq]

end TableQuery.Binary64
