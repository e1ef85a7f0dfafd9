import TableQuery.Proofs.Value.Comparing
import TableQuery.Proofs.Value.Exact
import TableQuery.Proofs.Value.Kind

/-! Where equality is the sameness of values, and where it is not. An integer that meets a float is
rounded, so that two different integers may be equal to one float. -/
namespace TableQuery

namespace Binary64
variable {x y z : Binary64}

theorem equals_iff :
    x.equals y = true ↔ x.isNaN = false ∧ y.isNaN = false ∧ x.units = y.units := by
  simp only [equals, Bool.and_eq_true, Bool.not_eq_true', beq_iff_eq, and_assoc]

theorem equals_trans (hxy : x.equals y = true) (hyz : y.equals z = true) : x.equals z = true := by
  obtain ⟨hx, -, hunits⟩ := equals_iff.1 hxy
  obtain ⟨-, hz, hunits'⟩ := equals_iff.1 hyz
  exact equals_iff.2 ⟨hx, hz, hunits.trans hunits'⟩

theorem mul_one_inj {i j : Int} : i * one = j * one ↔ i = j :=
  Int.mul_eq_mul_right_iff (Int.natCast_ne_zero.2 one_pos.ne')

/-- An integer that is a float is not rounded to another one. -/
theorem equals_ofInteger_iff {i : Int} (hx : x.isNaN = false) :
    (ofInteger i).equals x = true ↔ i * one = x.units ∨ IsRounded i x := by
  have hexact : i * one = x.units → (ofInteger i).units = x.units := by
    intro h
    obtain ⟨hbelow, habove⟩ := keepsSide_ofInteger i hx
    exact Int.le_antisymm (habove (Int.le_of_eq h)) (hbelow (Int.le_of_eq h.symm))
  rw [equals_iff, IsRounded]
  constructor
  · intro h
    by_cases hsame : i * one = x.units
    · exact .inl hsame
    · exact .inr ⟨hx, h.2.2, hsame⟩
  · intro h
    refine ⟨isNaN_ofInteger i, hx, ?_⟩
    cases h with
    | inl hsame => exact hexact hsame
    | inr hrounded => exact hrounded.2.1

end Binary64

namespace Value
variable {a b c : Value}

def isNaN : Value → Bool
  | float x => x.isNaN
  | _ => false

theorem equals_self_iff (a : Value) : a.equals a = true ↔ a.isNaN = false := by
  cases a with
  | null => exact iff_of_true rfl rfl
  | float x => rw [equals, Binary64.equals_iff, isNaN, ← and_assoc, and_self, and_iff_left rfl]
  | _ => exact iff_of_true (beq_self_eq_true _) rfl

theorem equals_comm (a b : Value) : a.equals b = b.equals a := by
  rw [Bool.eq_iff_iff, ← compare?_eq_eq_iff, ← compare?_eq_eq_iff, compare?_swap a b]
  cases a.compare? b with
  | none => exact Iff.rfl
  | some o => cases o <;> decide

inductive Same : Value → Value → Prop
  | self {a : Value} (h : a.isNaN = false) : Same a a
  | rounded {a b : Value} {x y : Binary64} (ha : a.rounded? = some x) (hb : b.rounded? = some y)
      (hfloat : a.kind = .float ∨ b.kind = .float) (h : x.equals y = true) : Same a b

theorem int_or_float_of_rounded? {x : Binary64} (h : a.rounded? = some x) :
    (∃ i, a = int i ∧ Binary64.ofInteger i.toInt = x) ∨ a = float x := by
  cases a with
  | int i => exact .inl ⟨i, rfl, Option.some.inj h⟩
  | float y => exact .inr (congrArg float (Option.some.inj h))
  | _ => cases h

theorem equals_iff_same : a.equals b = true ↔ Same a b := by
  constructor
  · intro h
    fun_cases equals a b with
    | case1 => exact .self rfl
    | case2 a b =>
      cases eq_of_beq h
      exact .self rfl
    | case3 i j =>
      cases eq_of_beq h
      exact .self rfl
    | case4 x y => exact .rounded rfl rfl (.inl rfl) h
    | case5 i x => exact .rounded rfl rfl (.inr rfl) h
    | case6 x i => exact .rounded rfl rfl (.inl rfl) (Binary64.equals_comm x _ ▸ h)
    | case7 s t =>
      cases eq_of_beq h
      exact .self rfl
    | case8 t u =>
      cases eq_of_beq h
      exact .self rfl
    | case9 a b =>
      rw [equals] at h
      · cases h
      all_goals assumption
  · intro h
    cases h with
    | self h => exact (equals_self_iff a).2 h
    | rounded ha hb hfloat h =>
      obtain ⟨i, rfl, rfl⟩ | rfl := int_or_float_of_rounded? ha
      · obtain ⟨j, rfl, rfl⟩ | rfl := int_or_float_of_rounded? hb
        · cases hfloat with
          | inl hkind => cases hkind
          | inr hkind => cases hkind
        · exact h
      · obtain ⟨j, rfl, rfl⟩ | rfl := int_or_float_of_rounded? hb
        · rwa [equals, Binary64.equals_comm]
        · exact h

def AcrossFloat : Value → Value → Value → Prop
  | int i, float _, int j => i ≠ j
  | _, _, _ => False

theorem AcrossFloat.exists_eq (h : AcrossFloat a b c) :
    ∃ (i j : Int64) (x : Binary64), a = int i ∧ b = float x ∧ c = int j ∧ i ≠ j := by
  unfold AcrossFloat at h
  split at h
  · next i x j => exact ⟨i, j, x, rfl, rfl, rfl, h⟩
  · cases h

theorem exists_float_of_kind (h : a.kind = .float) : ∃ x, a = float x := by
  cases a with
  | float x => exact ⟨x, rfl⟩
  | _ => cases h

/-- Rounding gives one float for every number, so that only a float between two integers can be
equal to both without these being equal. -/
theorem equals_trans_iff (hab : a.equals b = true) (hbc : b.equals c = true) :
    a.equals c = true ↔ ¬ AcrossFloat a b c := by
  cases equals_iff_same.1 hab with
  | self h =>
    refine iff_of_true hbc fun hacross => ?_
    obtain ⟨i, j, x, rfl, hb, -⟩ := hacross.exists_eq
    cases hb
  | rounded ha hb hfloat hxy =>
    cases equals_iff_same.1 hbc with
    | self h =>
      refine iff_of_true hab fun hacross => ?_
      obtain ⟨i, j, x, -, rfl, hc, -⟩ := hacross.exists_eq
      cases hc
    | rounded hb' hc hfloat' hyz =>
      obtain rfl := Option.some.inj (hb.symm.trans hb')
      have hxz := Binary64.equals_trans hxy hyz
      by_cases hend : a.kind = .float ∨ c.kind = .float
      · refine iff_of_true (equals_iff_same.2 (.rounded ha hc hend hxz)) fun hacross => ?_
        obtain ⟨i, j, x, rfl, -, rfl, -⟩ := hacross.exists_eq
        exact hend.elim nofun nofun
      · rw [not_or] at hend
        obtain ⟨y, rfl⟩ := exists_float_of_kind (hfloat.resolve_left hend.1)
        obtain ⟨i, rfl, -⟩ | rfl := int_or_float_of_rounded? ha
        · obtain ⟨j, rfl, -⟩ | rfl := int_or_float_of_rounded? hc
          · rw [equals, AcrossFloat, beq_iff_eq, ne_eq, not_not]
          · exact absurd rfl hend.2
        · exact absurd rfl hend.1

theorem equals_iff_of_extended? {r s : EReal} (ha : a.extended? = some r)
    (hb : b.extended? = some s) : a.equals b = true ↔ r = s ∨ MeetRounded a b := by
  rw [extended?_eq] at ha hb
  obtain ⟨u, hu, rfl⟩ := Option.map_eq_some_iff.1 ha
  obtain ⟨v, hv, rfl⟩ := Option.map_eq_some_iff.1 hb
  rw [Binary64.strictMonoOn_ofUnits.injOn.eq_iff (units?_mem hu) (units?_mem hv)]
  cases a with
  | int i =>
    cases hu
    cases b with
    | int j =>
      cases hv
      rw [Binary64.mul_one_inj, Int64.toInt_inj, equals, beq_iff_eq]
      exact (or_iff_left id).symm
    | float y =>
      obtain ⟨hy, rfl⟩ := units?_float hv
      exact Binary64.equals_ofInteger_iff hy
    | _ => cases hv
  | float x =>
    obtain ⟨hx, rfl⟩ := units?_float hu
    cases b with
    | int j =>
      cases hv
      rw [@eq_comm _ x.units]
      exact Binary64.equals_ofInteger_iff hx
    | float y =>
      obtain ⟨hy, rfl⟩ := units?_float hv
      rw [equals, Binary64.equals_iff, hx, hy]
      exact ⟨fun h => .inl h.2.2, fun h => ⟨rfl, rfl, h.resolve_right id⟩⟩
    | _ => cases hv
  | _ => cases hu

/-- What is no number is equal to itself only, and NaN to nothing. -/
theorem equals_iff_of_extended?_eq_none (ha : a.extended? = none) :
    a.equals b = true ↔ a = b ∧ a.isNaN = false := by
  rw [equals_iff_same]
  constructor
  · intro h
    cases h with
    | self h => exact ⟨rfl, h⟩
    | rounded hx hy hfloat h =>
      cases a with
      | int i => cases ha
      | float x =>
        cases hx
        rw [extended?, Binary64.extended?_eq (Binary64.equals_iff.1 h).1] at ha
        cases ha
      | _ => cases hx
  · rintro ⟨rfl, h⟩
    exact .self h

/-- Two different integers are not both the float that they are equal to. -/
theorem meetRounded_of_ne {x : Binary64} {i j : Int64} (hab : (int i).equals (float x) = true)
    (hbc : (float x).equals (int j) = true) (hne : i ≠ j) :
    MeetRounded (int i) (float x) ∨ MeetRounded (float x) (int j) := by
  have hx : x.isNaN = false := (Binary64.equals_iff.1 hab).2.1
  cases (Binary64.equals_ofInteger_iff hx).1 hab with
  | inr hrounded => exact .inl hrounded
  | inl hi =>
    cases (Binary64.equals_ofInteger_iff hx).1 hbc with
    | inr hrounded => exact .inr hrounded
    | inl hj =>
      have hsame : i.toInt = j.toInt := Binary64.mul_one_inj.1 (hi.trans hj.symm)
      exact absurd (Int64.toInt_inj.1 hsame) hne

/-- The laws of equality. It is one of all values but NaN, and relates numbers if they are the
same, and besides an integer to the float that it is rounded to. That is all that keeps it from
being transitive. -/
structure EqualUpToRounding (a b c : Value) : Prop where
  self : a.equals a = true ↔ a.isNaN = false
  symm : a.equals b = b.equals a
  number : ∀ r s, a.extended? = some r → b.extended? = some s →
    (a.equals b = true ↔ r = s ∨ MeetRounded a b)
  other : a.extended? = none → (a.equals b = true ↔ a = b ∧ a.isNaN = false)
  trans : a.equals b = true → b.equals c = true → (a.equals c = true ↔ ¬ AcrossFloat a b c)
  rounded : a.equals b = true → b.equals c = true → AcrossFloat a b c →
    MeetRounded a b ∨ MeetRounded b c

/-- Equality is reflexive but for NaN, and symmetric. It is transitive but for two integers that
are both equal to one float, of which one at least is rounded to it. -/
theorem equalUpToRounding (a b c : Value) : EqualUpToRounding a b c where
  self := equals_self_iff a
  symm := equals_comm a b
  number _ _ := equals_iff_of_extended?
  other := equals_iff_of_extended?_eq_none
  trans := equals_trans_iff
  rounded hab hbc hacross := by
    obtain ⟨i, j, x, rfl, rfl, rfl, hne⟩ := hacross.exists_eq
    exact meetRounded_of_ne hab hbc hne

/-- One float is equal to an integer and to the next one. -/
theorem equals_of_neighbours :
    let i : Value := .int 9007199254740992
    let x : Value := .float (Binary64.ofBits 0x4340000000000000)
    let j : Value := .int 9007199254740993
    i.equals x = true ∧ x.equals j = true ∧ AcrossFloat i x j ∧ ¬ i.equals j = true := by
  intro i x j
  have hix : i.equals x = true := by decide +kernel
  have hxj : x.equals j = true := by decide +kernel
  have hacross : AcrossFloat i x j := by
    rw [AcrossFloat]
    decide
  refine ⟨hix, hxj, hacross, ?_⟩
  rw [(equalUpToRounding i x j).trans hix hxj, not_not]
  exact hacross

end Value
end TableQuery
