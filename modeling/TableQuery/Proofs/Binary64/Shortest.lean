import TableQuery.Proofs.Binary64.Decimal

/-! The shortest decimal of a value. There always is one. It lies between the midpoints to the
neighbours of the value, and up to 2^53 or so it has the same whole part. -/
namespace TableQuery.Binary64

theorem spacing_le_spacing_succ (m : Nat) : spacing m ≤ spacing (m + 1) := by
  refine Nat.pow_le_pow_right Nat.two_pos ?_
  unfold binade
  omega

theorem unitsOf_le_pred_add (m : Nat) : unitsOf m ≤ unitsOf (m - 1) + spacing m := by
  cases m with
  | zero => exact Nat.le_add_right _ _
  | succ m =>
    rw [unitsOf_succ, Nat.add_sub_cancel]
    exact Nat.add_le_add_left (spacing_le_spacing_succ m) _

theorem isProper_intervalOf {m : Nat} (h : 0 < m) : (intervalOf m).IsProper := by
  have hpred : unitsOf (m - 1) < unitsOf m := unitsOf_strictMono (by omega)
  have hsucc : unitsOf m < unitsOf (m + 1) := unitsOf_strictMono (Nat.lt_succ_self m)
  constructor <;> simp only [intervalOf] <;> omega

/-- The interval is wider than the value's part by 2^53. -/
theorem value_lt_width {m : Nat} (h : 0 < m) :
    (intervalOf m).value + (intervalOf m).low * 2 ^ 53 < (intervalOf m).high * 2 ^ 53 := by
  simp only [intervalOf]
  have hpred : unitsOf (m - 1) < unitsOf m := unitsOf_strictMono (by omega)
  have hsucc := unitsOf_succ m
  obtain ⟨s, j, hm, hs, hj, hspacing⟩ := exists_place m
  have hvalue : unitsOf m = j * 2 ^ s := by rw [hm, unitsOf_place hs (Nat.le_of_lt hj)]
  have hbinade : 2 * binade = 2 ^ 53 := by decide
  rw [hspacing] at hsucc
  by_cases hfirst : j ≤ binade
  · have hle : 2 * unitsOf m ≤ 2 ^ s * 2 ^ 53 := by
      rw [hvalue, ← Nat.mul_assoc, Nat.mul_comm (2 ^ s)]
      exact Nat.mul_le_mul_right _ (by omega)
    omega
  · -- the neighbours are equally far away
    have hnear : unitsOf m = unitsOf (m - 1) + 2 ^ s := by
      have hlast : m - 1 = s * binade + (j - 1) := by omega
      rw [hvalue, hlast, unitsOf_place (.inr (by omega)) (by omega), ← Nat.succ_mul]
      congr 1
      omega
    have hlt : unitsOf m < 2 ^ s * 2 ^ 53 := by
      rw [hvalue, Nat.mul_comm (2 ^ s)]
      exact Nat.mul_lt_mul_of_pos_right (by omega) (Nat.two_pow_pos s)
    omega

def placeOf (m : Nat) : Int := decimalPlace (intervalOf m).value

theorem placeOf_bounds {m : Nat} (h : 0 < m) :
    step (placeOf m - 1) ≤ (intervalOf m).value ∧
      ((intervalOf m).value : ℚ) < step (placeOf m) := by
  have hproper := isProper_intervalOf h
  exact decimalPlace_bounds (Nat.lt_of_le_of_lt (Nat.zero_le _) hproper.low_lt)

theorem step_mul (e f : Int) : step (e + f) = 10 ^ e * step f := by
  rw [step, step, zpow_add₀ (by norm_num), mul_assoc]

/-- Seventeen digits are always enough. -/
theorem exists_onGrid?_seventeen (tie : Nat → Nat) {m : Nat} (h : 0 < m) :
    ∃ n, (intervalOf m).onGrid? tie (placeOf m - 17) = some n := by
  refine Interval.exists_onGrid? (isProper_intervalOf h) ?_
  obtain ⟨hplace, -⟩ := placeOf_bounds h
  have hwide : ((intervalOf m).value : ℚ) + (intervalOf m).low * 2 ^ 53 <
      (intervalOf m).high * 2 ^ 53 := by exact_mod_cast value_lt_width h
  have hdigits : placeOf m - 1 = 16 + (placeOf m - 17) := by omega
  have hpos := step_pos (placeOf m - 17)
  rw [hdigits, step_mul] at hplace
  norm_num at hplace hwide
  linarith

/-- As few digits are taken as are enough. -/
theorem exists_shortest_eq (tie : Nat → Nat) {m : Nat} (h : 0 < m) :
    ∃ count n : Nat, 1 ≤ count ∧ (intervalOf m).onGrid? tie (placeOf m - count) = some n ∧
      shortest tie m = (Decimal.mk n (placeOf m - count)).normal 17 ∧
      ∀ fewer : Nat, 1 ≤ fewer → fewer < count →
        (intervalOf m).onGrid? tie (placeOf m - fewer) = none := by
  let found (count : Nat) : Option Decimal :=
    ((intervalOf m).onGrid? tie (placeOf m - count)).map fun n => ⟨n, placeOf m - count⟩
  have hshortest : shortest tie m =
      (((List.range' 1 17).findSome? found).getD ⟨0, 0⟩).normal 17 := rfl
  cases hfirst : (List.range' 1 17).findSome? found with
  | none =>
    obtain ⟨n, hn⟩ := exists_onGrid?_seventeen tie h
    have hnone := List.findSome?_eq_none_iff.1 hfirst 17 (by decide)
    rw [Option.map_eq_none_iff] at hnone
    cases hn.symm.trans hnone
  | some d =>
    obtain ⟨before, count, after, hrange, hcount, hbefore⟩ :=
      List.findSome?_eq_some_iff.1 hfirst
    obtain ⟨n, hn, rfl⟩ := Option.map_eq_some_iff.1 hcount
    have hsorted : (before ++ count :: after).Pairwise (· < ·) :=
      hrange ▸ List.pairwise_lt_range'
    have hmem : ∀ c, c ∈ before ++ count :: after ↔ 1 ≤ c ∧ c < 18 := by
      intro c
      rw [← hrange, List.mem_range'_1]
    refine ⟨count, n, ((hmem count).1 (by simp)).1, hn, by rw [hshortest, hfirst]; rfl, ?_⟩
    intro fewer hone hfewer
    have hcount' := ((hmem count).1 (by simp)).2
    have hbefore' : fewer ∈ before := by
      cases List.mem_append.1 ((hmem fewer).2 ⟨hone, by omega⟩) with
      | inl hin => exact hin
      | inr hin =>
        cases List.mem_cons.1 hin with
        | inl heq => omega
        | inr hafter =>
          have := List.rel_of_pairwise_cons (List.pairwise_append.1 hsorted).2.1 hafter
          omega
    exact Option.map_eq_none_iff.1 (hbefore fewer hbefore')

section
variable {tie : Nat → Nat} {m : Nat}

/-- No digit is lost at the front. -/
theorem pow_le_of_onGrid? (htie : ∀ n, tie n = n ∨ tie n = n + 1) (h : 0 < m) {count n : Nat}
    (hcount : 1 ≤ count)
    (hn : (intervalOf m).onGrid? tie (placeOf m - count) = some n) : 10 ^ (count - 1) ≤ n := by
  obtain ⟨-, habove, -⟩ := Interval.onGrid?_eq_some htie hn
  obtain ⟨hplace, -⟩ := placeOf_bounds h
  have hexponent : placeOf m - 1 = ((count - 1 : Nat) : Int) + (placeOf m - count) := by omega
  rw [hexponent, step_mul, zpow_natCast] at hplace
  have hlt := lt_of_mul_lt_mul_right (lt_of_le_of_lt hplace habove) (step_pos _).le
  exact Nat.le_of_lt_succ (by exact_mod_cast hlt)

structure IsShortened (m : Nat) (d : Decimal) : Prop where
  digits_pos : 0 < d.digits
  low_le : (intervalOf m).low ≤ d.value * unit
  le_high : d.value * unit ≤ (intervalOf m).high
  first_le : (10 : ℚ) ^ (placeOf m - 1) ≤ d.value

theorem isShortened_shortest (htie : ∀ n, tie n = n ∨ tie n = n + 1) (h : 0 < m) :
    IsShortened m (shortest tie m) := by
  obtain ⟨count, n, hcount, hn, hshortest, -⟩ := exists_shortest_eq tie h
  obtain ⟨⟨hlow, hhigh⟩, -⟩ := Interval.onGrid?_eq_some htie hn
  have hfirst : 10 ^ (count - 1) ≤ n := pow_le_of_onGrid? htie h hcount hn
  rw [hshortest]
  constructor
  · exact Decimal.digits_normal_pos _ (Nat.lt_of_lt_of_le (Nat.pow_pos (by decide)) hfirst)
  · rwa [Decimal.value_normal, Decimal.value_mul_unit]
  · rwa [Decimal.value_normal, Decimal.value_mul_unit]
  · have hexponent : placeOf m - 1 = ((count - 1 : Nat) : Int) + (placeOf m - count) := by omega
    rw [Decimal.value_normal, Decimal.value, hexponent, zpow_add₀ (by norm_num), zpow_natCast]
    exact mul_le_mul_of_nonneg_right (by exact_mod_cast hfirst) (by positivity)

variable {d : Decimal}

theorem IsShortened.pow_le (hd : IsShortened m d) (h : 0 < m) {k : Int}
    (hk : step k ≤ (intervalOf m).value) : 10 ^ k ≤ d.value := by
  obtain ⟨-, hplace⟩ := placeOf_bounds h
  have hstep : step k < step (placeOf m) := lt_of_le_of_lt hk hplace
  have hlt : k < placeOf m := by
    have hpow : (10 : ℚ) ^ k < 10 ^ placeOf m := lt_of_mul_lt_mul_right hstep unit_pos.le
    exact (zpow_lt_zpow_iff_right₀ (by norm_num)).1 hpow
  exact le_trans (zpow_le_zpow_right₀ (by norm_num) (by omega)) hd.first_le

/-- A bound above the midpoint before some magnitude is above the decimals of all lower ones. -/
theorem IsShortened.lt_of_lt (hd : IsShortened m d) {k : Nat} (hmk : m < k) {q : ℚ}
    (hq : (unitsOf (k - 1) + unitsOf k : Nat) < q * unit) : d.value < q := by
  have hnear : unitsOf m ≤ unitsOf (k - 1) := unitsOf_le_iff.2 (by omega)
  have hfar : unitsOf (m + 1) ≤ unitsOf k := unitsOf_le_iff.2 hmk
  have hhigh : ((intervalOf m).high : ℚ) ≤ (unitsOf (k - 1) + unitsOf k : Nat) :=
    Nat.cast_le.2 (Nat.add_le_add hnear hfar)
  exact lt_of_mul_lt_mul_right (lt_of_le_of_lt (hd.le_high.trans hhigh) hq) unit_pos.le

end

theorem exists_one_eq : ∃ n, one = 2 ^ n := by
  unfold one
  generalize 1074 = n
  exact ⟨n, rfl⟩

/-- Below 2^54 values are whole multiples of two, or so near to one another that their spacing
divides one. -/
theorem spacing_dvd_one {m : Nat} (h : unitsOf m < 2 ^ 54 * one) :
    spacing m ∣ one ∨ spacing m = 2 * one ∧ 2 * one ∣ unitsOf m := by
  obtain ⟨n, hn⟩ := exists_one_eq
  obtain ⟨s, j, rfl, hs, hj, hspacing⟩ := exists_place m
  rw [unitsOf_place hs (Nat.le_of_lt hj), hn] at *
  rw [hspacing]
  by_cases hle : s ≤ n
  · exact .inl (Nat.pow_dvd_pow 2 hle)
  · have hbinade : binade ≤ j := hs.resolve_left (by omega)
    have hsucc : s = n + 1 := by
      by_contra hne
      have hfour : 2 ^ (n + 2) ≤ 2 ^ s := Nat.pow_le_pow_right Nat.two_pos (by omega)
      have hmul : binade * 2 ^ (n + 2) ≤ j * 2 ^ s := Nat.mul_le_mul hbinade hfour
      have hpow : binade * 2 ^ (n + 2) = 2 ^ 54 * 2 ^ n := by
        rw [Nat.pow_add, Nat.mul_comm (2 ^ n), ← Nat.mul_assoc]
        rfl
      omega
    subst hsucc
    rw [Nat.pow_succ, Nat.mul_comm (2 ^ n)]
    exact .inr ⟨rfl, Nat.dvd_mul_left _ _⟩

section
variable {tie : Nat → Nat} {m : Nat}

theorem intervalOf_bounds (m : Nat) :
    2 * unitsOf m ≤ (intervalOf m).low + spacing m ∧
      (intervalOf m).high = 2 * unitsOf m + spacing m := by
  have hpred := unitsOf_le_pred_add m
  have hsucc := unitsOf_succ m
  constructor <;> simp only [intervalOf] <;> omega

/-- Less than half of one away there is no other integer, and less than one away from an even
integer there is no other multiple of ten. -/
theorem eq_of_near {N D u g : Nat} (hu : 0 < u) (hlow : N * u ≤ D * u + g)
    (hhigh : D * u ≤ N * u + g) (hg : 2 * g ≤ u ∨ g = u ∧ 2 ∣ N ∧ 2 ∣ D) : D = N := by
  have hD : D ≤ N + 1 := by
    refine Nat.le_of_mul_le_mul_right ?_ hu
    rw [Nat.succ_mul]
    omega
  have hN : N ≤ D + 1 := by
    refine Nat.le_of_mul_le_mul_right ?_ hu
    rw [Nat.succ_mul]
    omega
  cases hg with
  | inl hg =>
    by_contra hne
    have hone : D = N + 1 ∨ N = D + 1 := by omega
    cases hone with
    | inl h =>
      rw [h, Nat.succ_mul] at hhigh
      omega
    | inr h =>
      rw [h, Nat.succ_mul] at hlow
      omega
  | inr hg => omega

theorem value_eq_of_whole {N : Nat} (hN : unitsOf m = N * one) :
    ((intervalOf m).value : ℚ) = N * step 0 := by
  simp only [intervalOf, hN, step, unit, zpow_zero, one_mul]
  push_cast
  ring

theorem placeOf_pos_of_whole (h : 0 < m) {N : Nat} (hN : unitsOf m = N * one) (hpos : 0 < N) :
    0 < placeOf m := by
  have hstep : step 0 < step (placeOf m) := by
    refine lt_of_le_of_lt ?_ (placeOf_bounds h).2
    rw [value_eq_of_whole hN]
    exact le_mul_of_one_le_left (step_pos 0).le (by exact_mod_cast hpos)
  have hpow : (10 : ℚ) ^ (0 : Int) < 10 ^ placeOf m := lt_of_mul_lt_mul_right hstep unit_pos.le
  exact (zpow_lt_zpow_iff_right₀ (by norm_num)).1 hpow

/-- The shortest decimal of an integer has no digits behind the point. It is the integer itself, or
ends with zeros. -/
theorem exists_shortest_of_whole (tie : Nat → Nat) (h : 0 < m) {N : Nat}
    (hN : unitsOf m = N * one) (hpos : 0 < N) :
    ∃ D : Nat, (shortest tie m).value = D ∧ (D = N ∨ 2 ∣ D) := by
  have hitself : (intervalOf m).onGrid? tie 0 = some N :=
    Interval.onGrid?_of_eq (isProper_intervalOf h) (value_eq_of_whole hN)
  have hplace := placeOf_pos_of_whole h hN hpos
  obtain ⟨count, n, hcount, hn, hshortest, hfewer⟩ := exists_shortest_eq tie h
  -- the integer is found with all its digits, so that no digit behind the point is tried
  have hwhole : count ≤ placeOf m := by
    by_contra hmore
    have hnone := hfewer (placeOf m).toNat (by omega) (by omega)
    rw [Int.toNat_of_nonneg (by omega), Int.sub_self, hitself] at hnone
    cases hnone
  obtain ⟨k, hk⟩ := Int.eq_ofNat_of_zero_le (Int.sub_nonneg.2 hwhole)
  rw [hk] at hn hshortest
  refine ⟨n * 10 ^ k, ?_, ?_⟩
  · rw [hshortest, Decimal.value_normal, Decimal.value, zpow_natCast]
    push_cast
    rfl
  · cases k with
    | zero =>
      cases hn.symm.trans hitself
      rw [Nat.pow_zero, Nat.mul_one]
      exact .inl rfl
    | succ k =>
      have hten : 2 ∣ 10 ^ (k + 1) := dvd_pow (by decide) (Nat.succ_ne_zero k)
      exact .inr (Dvd.dvd.mul_left hten n)

/-- An integer of at most 54 bits is its own shortest decimal. -/
theorem value_shortest_of_whole (htie : ∀ n, tie n = n ∨ tie n = n + 1) (h : 0 < m) {N : Nat}
    (hN : unitsOf m = N * one) (hpos : 0 < N) (hlt : N < 2 ^ 54) : (shortest tie m).value = N := by
  obtain ⟨D, hD, hN' | heven⟩ := exists_shortest_of_whole tie h hN hpos
  · rw [hD, hN']
  have hshort := isShortened_shortest htie h
  have hlow := hshort.low_le
  have hhigh := hshort.le_high
  rw [hD, unit_eq_cast] at hlow hhigh
  obtain ⟨hwidth, hwidth'⟩ := intervalOf_bounds m
  have hsame : 2 * unitsOf m = N * (2 * one) := by
    rw [hN]
    ring
  rw [hD, Nat.cast_inj]
  refine eq_of_near (u := 2 * one) (g := spacing m) (Nat.mul_pos Nat.two_pos one_pos) ?_ ?_ ?_
  · have : (intervalOf m).low ≤ D * (2 * one) := by exact_mod_cast hlow
    omega
  · have : D * (2 * one) ≤ (intervalOf m).high := by exact_mod_cast hhigh
    omega
  · have hunits : unitsOf m < 2 ^ 54 * one := by
      rw [hN]
      exact Nat.mul_lt_mul_of_pos_right hlt one_pos
    refine (spacing_dvd_one hunits).imp ?_ ?_
    · intro hdvd
      exact Nat.mul_le_mul_left 2 (Nat.le_of_dvd one_pos hdvd)
    · intro hdvd
      obtain ⟨hspacing, htwo⟩ := hdvd
      rw [hN] at htwo
      exact ⟨hspacing, Nat.dvd_of_mul_dvd_mul_right one_pos htwo, heven⟩

theorem floor_eq_of_unit {q : ℚ} {N : Nat} (hlow : N * unit ≤ q * unit)
    (hhigh : q * unit < (N + 1) * unit) : ⌊q⌋₊ = N := by
  have hle : (N : ℚ) ≤ q := le_of_mul_le_mul_right hlow unit_pos
  have hlt : q < N + 1 := lt_of_mul_lt_mul_right hhigh unit_pos.le
  exact (Nat.floor_eq_iff (le_trans (Nat.cast_nonneg N) hle)).2 ⟨hle, hlt⟩

/-- A multiple of `g` that is not one of `u` is at least `g` away from the multiples of `u`. -/
theorem away_of_not_dvd {g u v : Nat} (hu : g ∣ u) (hv : g ∣ v) (h : ¬ u ∣ v) (hpos : 0 < u) :
    v / u * u + g ≤ v ∧ v + g ≤ (v / u + 1) * u := by
  have hsplit := Nat.div_add_mod v u
  rw [Nat.mul_comm] at hsplit
  have hrest : g ∣ v % u := (Nat.dvd_mod_iff hu).2 hv
  have hlt : v % u < u := Nat.mod_lt _ hpos
  have hbelow := Nat.le_of_dvd (Nat.emod_pos_of_not_dvd h) hrest
  have habove := Nat.le_of_dvd (Nat.sub_pos_of_lt hlt) (Nat.dvd_sub hu hrest)
  rw [Nat.succ_mul]
  omega

theorem spacing_dvd_unitsOf (m : Nat) : spacing m ∣ unitsOf m := by
  obtain ⟨s, j, rfl, hs, hj, hspacing⟩ := exists_place m
  rw [hspacing, unitsOf_place hs (Nat.le_of_lt hj)]
  exact Nat.dvd_mul_left _ _

/-- Behind the point the shortest decimal may differ from its value, but not in front of it. -/
theorem floor_value_shortest (htie : ∀ n, tie n = n ∨ tie n = n + 1) (h : 0 < m)
    (hlt : unitsOf m < 2 ^ 54 * one) : ⌊(shortest tie m).value⌋₊ = unitsOf m / one := by
  by_cases hwhole : one ∣ unitsOf m
  · have hN : unitsOf m = unitsOf m / one * one := (Nat.div_mul_cancel hwhole).symm
    have hunits := unitsOf_pos h
    have hpos : 0 < unitsOf m / one := Nat.div_pos (Nat.le_of_dvd hunits hwhole) one_pos
    have hbound : unitsOf m / one < 2 ^ 54 := (Nat.div_lt_iff_lt_mul one_pos).2 hlt
    rw [value_shortest_of_whole htie h hN hpos hbound, Nat.floor_natCast]
  · -- the integers next to the value are at least its spacing away
    have hspacing : spacing m ∣ one := by
      refine (spacing_dvd_one hlt).resolve_right ?_
      intro htwo
      exact hwhole ((Dvd.intro_left 2 rfl).trans htwo.2)
    obtain ⟨hbelow, habove⟩ := away_of_not_dvd hspacing (spacing_dvd_unitsOf m) hwhole one_pos
    generalize unitsOf m / one = N at hbelow habove ⊢
    have hspacing_pos := spacing_pos m
    obtain ⟨hwidth, hwidth'⟩ := intervalOf_bounds m
    have hshort := isShortened_shortest htie h
    refine floor_eq_of_unit (le_trans ?_ hshort.low_le) (lt_of_le_of_lt hshort.le_high ?_)
    · have hle : N * (2 * one) ≤ (intervalOf m).low := by
        rw [Nat.mul_left_comm]
        omega
      rw [unit_eq_cast]
      exact_mod_cast hle
    · have hlt : (intervalOf m).high < (N + 1) * (2 * one) := by
        rw [Nat.mul_left_comm]
        omega
      rw [unit_eq_cast]
      exact_mod_cast hlt

end

end TableQuery.Binary64
