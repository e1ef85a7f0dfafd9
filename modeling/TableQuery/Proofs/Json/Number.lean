import TableQuery.Json.Number
import TableQuery.Proofs.Binary64.Layout
import TableQuery.Proofs.Binary64.Rounding

/-! The numbers of JSON documents are finite, and their texts begin with their whole parts, as
far as they are written without an exponent. -/
namespace TableQuery.Json.Number
open TableQuery.Binary64 TableQuery.Text

def Significand.IsBounded (s : Significand) : Prop := s.value < limit

theorem Significand.isBounded_addWhole {s : Significand} (h : s.IsBounded) (digit : Char) :
    (s.addWhole digit).IsBounded := by
  unfold addWhole IsBounded at *
  dsimp only
  split
  · exact h
  · next hfits =>
    rw [Bool.or_eq_true, not_or, decide_eq_true_eq] at hfits
    exact Nat.lt_of_not_le hfits.2

theorem Significand.isBounded_addFraction {s : Significand} (h : s.IsBounded) (digit : Char) :
    (s.addFraction digit).IsBounded := by
  unfold addFraction IsBounded at *
  dsimp only
  split
  · exact h
  · next hfits =>
    rw [Bool.or_eq_true, not_or, decide_eq_true_eq] at hfits
    exact Nat.lt_of_not_le hfits.2

theorem isBounded_foldl {add : Significand → Char → Significand}
    (hadd : ∀ s digit, s.IsBounded → (add s digit).IsBounded) (digits : List Char)
    {s : Significand} (h : s.IsBounded) : (digits.foldl add s).IsBounded := by
  induction digits generalizing s with
  | nil => exact h
  | cons digit digits ih => exact ih (hadd s digit h)

/-- No power of ten is less than one. -/
theorem one_le_powerOfTen (k : Nat) : one ≤ unitsOf (powerOfTen k).magnitude := by
  have hone : unitsOf 0x3FF0000000000000 = one := by decide +kernel
  have hpow : unitsOf 0x3FF0000000000000 * 1 ≤ Nat.pow 10 k * one := by
    rw [hone, Nat.mul_comm]
    exact Nat.mul_le_mul_right one (Nat.pow_pos (by decide))
  have hle : 0x3FF0000000000000 ≤ nearest (Nat.pow 10 k * one) 1 :=
    le_nearest Nat.one_pos (by decide) hpow
  rw [← hone]
  exact unitsOf_le_iff.2 hle

theorem magnitude_scaleDown_le {x divisor : Binary64} (h : one ≤ unitsOf divisor.magnitude) :
    (x.scaleDown divisor).magnitude ≤ x.magnitude :=
  nearest_le (Nat.lt_of_lt_of_le Binary64.one_pos h) (Nat.mul_le_mul_left _ h)

theorem magnitude_divideByPower_le (x : Binary64) (k : Nat) :
    (divideByPower x k).magnitude ≤ x.magnitude := by
  fun_induction divideByPower x k with
  | case1 x k hk => exact magnitude_scaleDown_le (one_le_powerOfTen k)
  | case2 x k hk hzero => exact Nat.le_refl _
  | case3 x k hk hzero ih => exact Nat.le_trans ih (magnitude_scaleDown_le (one_le_powerOfTen _))

theorem magnitude_ofQuotient_lt {significand : Nat} (h : significand < limit) (negative : Bool) :
    (ofQuotient negative significand 1).magnitude < infinite := by
  have hlimit : unitsOf 0x43F0000000000000 = limit * one := by decide +kernel
  have hle : significand * one ≤ unitsOf 0x43F0000000000000 * 1 := by
    rw [hlimit, Nat.mul_one]
    exact Nat.mul_le_mul_right one (Nat.le_of_lt h)
  exact Nat.lt_of_le_of_lt (nearest_le Nat.one_pos hle) (by decide)

variable {x : Binary64}

theorem magnitude_lt_of_scale? {negative : Bool} {significand : Nat} {exponent : Int}
    (h : significand < limit) (hx : scale? negative significand exponent = some x) :
    x.magnitude < infinite := by
  have hquotient := magnitude_ofQuotient_lt h negative
  unfold scale? at hx
  dsimp only at hx
  split at hx
  · cases hx
    exact Nat.lt_of_le_of_lt (magnitude_divideByPower_le _ _) hquotient
  · split at hx
    · split at hx
      · cases hx
      · next hfinite =>
        cases hx
        exact Nat.lt_of_le_of_ne (nearest_le_infinite _ _) (by simpa [isInfinite] using hfinite)
    · split at hx
      · cases hx
        exact hquotient
      · cases hx

theorem magnitude_lt_of_floatOf? {n : Numeral} (hx : floatOf? n = some x) :
    x.magnitude < infinite := by
  have hstart : (⟨0, 0, false⟩ : Significand).IsBounded := by
    unfold Significand.IsBounded
    decide
  have hwhole : (n.whole.foldl Significand.addWhole ⟨0, 0, false⟩).IsBounded :=
    isBounded_foldl (fun _ digit h => Significand.isBounded_addWhole h digit) _ hstart
  have hvalue := isBounded_foldl (fun _ digit h => Significand.isBounded_addFraction h digit)
    n.fraction
    (s := { n.whole.foldl Significand.addWhole ⟨0, 0, false⟩ with full := false }) hwhole
  unfold floatOf? at hx
  dsimp only at hx
  split at hx
  · exact magnitude_lt_of_scale? hvalue hx
  · split at hx
    · split at hx
      · cases hx
      · cases hx
        exact (by decide : 0 < infinite)
    · exact magnitude_lt_of_scale? hvalue hx

def IsFinite : Number → Prop
  | integer _ => True
  | float x => x.magnitude < infinite

theorem isFinite_of_ofNumeral? {n : Numeral} {x : Number} (h : ofNumeral? n = some x) :
    x.IsFinite := by
  unfold ofNumeral? at h
  dsimp only at h
  split at h
  · cases h
    trivial
  · split at h
    · cases h
      trivial
    · obtain ⟨y, hy, rfl⟩ := Option.map_eq_some_iff.1 h
      exact magnitude_lt_of_floatOf? hy

def wholePart : Number → Nat
  | integer i => i.toNat
  | float x => (x.units / one).toNat

def IsScientific : Number → Prop
  | integer _ => False
  | float x => x.negative = false ∧ Binary64.IsScientific x.magnitude

inductive Shows (x : Number) : List Char → Prop
  | negative {s : List Char} (h : x.wholePart = 0) (hx : ¬ x.IsScientific) : Shows x ('-' :: s)
  | whole {s : List Char} (h : Begins s x.wholePart) (hx : ¬ x.IsScientific) : Shows x s
  | digit {s : List Char} {n : Nat} (h : Begins s n) (hone : 1 ≤ n) (hnine : n ≤ 9)
      (hx : x.IsScientific) : Shows x s

theorem shows_integer (i : Int) : Shows (integer i) (text (integer i)) := by
  rw [text, integerDigits]
  split
  · next h => exact .negative (Int.toNat_of_nonpos (Int.le_of_lt h)) id
  · next h =>
    have habs : i.natAbs = i.toNat := by omega
    rw [habs]
    exact .whole (begins_digitsOf _) id

theorem wholePart_float (hsign : x.negative = false) :
    (float x).wholePart = unitsOf x.magnitude / one := by
  rw [wholePart, units, if_neg (by rw [hsign]; decide), ← Int.natCast_ediv, Int.toNat_natCast]

theorem shows_float (h : x.magnitude < infinite) : Shows (float x) (text (float x)) := by
  obtain ⟨s, hs, hdigit, hwhole⟩ := exists_jsonText? h
  rw [text, hs, Option.getD_some]
  cases hsign : x.negative with
  | true =>
    refine .negative ?_ fun hx => by simp [IsScientific, hsign] at hx
    have hunits : x.units / one ≤ 0 := by
      rw [units, if_pos hsign]
      exact Int.ediv_nonpos_of_nonpos_of_neg (by omega) (by have := Binary64.one_pos; omega)
    exact Int.toNat_of_nonpos hunits
  | false =>
    by_cases hx : Binary64.IsScientific x.magnitude
    · obtain ⟨n, hone, hnine, hn⟩ := hdigit hx
      exact .digit hn hone hnine ⟨hsign, hx⟩
    · refine .whole ?_ fun h => hx h.2
      rw [wholePart_float hsign]
      exact hwhole hx

theorem shows_text {x : Number} (h : x.IsFinite) : Shows x x.text := by
  cases x with
  | integer i => exact shows_integer i
  | float x => exact shows_float h

theorem wholePart_of_isScientific {x : Number} (h : x.IsScientific) :
    x.wholePart = 0 ∨ 10000000000000000 ≤ x.wholePart := by
  cases x with
  | integer i => cases h
  | float x =>
    obtain ⟨hsign, hx⟩ := h
    rw [wholePart_float hsign]
    cases hx with
    | inl hsmall => exact .inl (Nat.div_eq_of_lt (by omega))
    | inr hgreat => exact .inr ((Nat.le_div_iff_mul_le Binary64.one_pos).2 hgreat)

section
variable {x : Number} {s : List Char}

theorem Shows.trim_ne_nil (h : Shows x s) : trim s ≠ [] := by
  have hbegins : ∀ {n}, Begins s n → trim s ≠ [] := by
    intro n hn
    obtain ⟨c, hc⟩ := List.exists_mem_of_ne_nil _ hn.ne_nil
    have hdigit := List.all_eq_true.1 List.all_takeWhile c hc
    exact trim_ne_nil_of_mem ((List.takeWhile_prefix _).subset hc) (isBlank_of_isDigit hdigit)
  cases h with
  | negative _ _ => exact trim_ne_nil_of_mem List.mem_cons_self (by decide)
  | whole h _ => exact hbegins h
  | digit h _ _ _ => exact hbegins h

/-- Exactly the texts with an exponent are misread, as the one digit in front of their point. -/
theorem Shows.count (h : Shows x s) :
    (Paging.count s = min x.wholePart Paging.maxCount ↔ ¬ x.IsScientific) ∧
      (x.IsScientific → 1 ≤ Paging.count s ∧ Paging.count s ≤ 9) := by
  cases h with
  | negative hzero hx =>
    rw [Paging.count_of_minus, hzero]
    exact ⟨iff_of_true rfl hx, fun h => absurd h hx⟩
  | whole h hx => exact ⟨iff_of_true (Paging.count_of_begins h) hx, fun h => absurd h hx⟩
  | @digit _ n h hone hnine hx =>
    have hmax : Paging.maxCount = 18446744073709551615 := rfl
    have hpart := wholePart_of_isScientific hx
    rw [Paging.count_of_begins h, hmax]
    refine ⟨iff_of_false ?_ (not_not_intro hx), fun _ => ?_⟩
    · omega
    · omega

end

end TableQuery.Json.Number
