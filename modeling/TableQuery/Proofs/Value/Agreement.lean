import TableQuery.Proofs.Binary64.Rounding
import TableQuery.Proofs.Binary64.Truncation
import TableQuery.Value.Order

/-! Comparing and sorting agree on the order of values, but for an integer and a float that the
integer is rounded to without being it. Comparing takes these two for equal, and sorting does
not. -/
namespace TableQuery

namespace Binary64
variable {i : Int} {x : Binary64} {o : Ordering}

def IsRounded (i : Int) (x : Binary64) : Prop :=
  x.isNaN = false ∧ (ofInteger i).units = x.units ∧ i * one ≠ x.units

/-- Only integers of more than 53 bits are rounded to another number. -/
theorem IsRounded.lt_natAbs (h : IsRounded i x) : 2 ^ 53 < i.natAbs := by
  have hbinade : 2 * binade = 2 ^ 53 := by decide
  by_contra hle
  have hexact : (ofInteger i).units = i * one := units_ofInteger_of_le (by omega)
  exact h.2.2 (hexact.symm.trans h.2.1)

theorem compare?_ofInteger (h : (ofInteger i).compare? x = some o) :
    x.isNaN = false ∧ compare (ofInteger i).units x.units = o := by
  rw [compare?, isNaN_ofInteger, Bool.false_or] at h
  cases hx : x.isNaN with
  | true =>
    rw [hx] at h
    cases h
  | false =>
    rw [hx] at h
    exact ⟨rfl, Option.some.inj h⟩

/-- Rounding can make the order of an integer and a float an equality, and do nothing else to
it. -/
theorem compareInteger_eq_iff {i : Int64} (h : (ofInteger i.toInt).compare? x = some o) :
    (compareInteger i x = o ↔ ¬ IsRounded i.toInt x) ∧ (IsRounded i.toInt x → o = .eq) := by
  obtain ⟨hx, rfl⟩ := compare?_ofInteger h
  obtain ⟨hbelow, habove⟩ := keepsSide_ofInteger i.toInt hx
  have hinteger : compareInteger i x = compare (i.toInt * one) x.units := by
    rw [compareInteger_eq_compare_units, hx]
    rfl
  rw [hinteger]
  generalize i.toInt = i at hbelow habove ⊢
  rcases Int.lt_trichotomy (ofInteger i).units x.units with hlt | heq | hgt
  · have hside : i * one < x.units := by
      by_contra hle
      exact absurd (hbelow (Int.not_lt.1 hle)) (Int.not_le.2 hlt)
    have hnot : ¬ IsRounded i x := fun hr => Int.ne_of_lt hlt hr.2.1
    rw [Int.compare_eq_lt.2 hlt, Int.compare_eq_lt.2 hside]
    exact ⟨iff_of_true rfl hnot, fun hr => absurd hr hnot⟩
  · rw [Int.compare_eq_eq.2 heq, Int.compare_eq_eq]
    refine ⟨⟨fun hsame hr => hr.2.2 hsame, fun hnot => ?_⟩, fun _ => rfl⟩
    by_contra hne
    exact hnot ⟨hx, heq, hne⟩
  · have hside : x.units < i * one := by
      by_contra hle
      exact absurd (habove (Int.not_lt.1 hle)) (Int.not_le.2 hgt)
    have hnot : ¬ IsRounded i x := fun hr => Int.ne_of_gt hgt hr.2.1
    rw [Int.compare_eq_gt.2 hgt, Int.compare_eq_gt.2 hside]
    exact ⟨iff_of_true rfl hnot, fun hr => absurd hr hnot⟩

theorem compare?_eq_swap (x y : Binary64) : x.compare? y = (y.compare? x).map Ordering.swap := by
  rw [compare?, compare?, Bool.or_comm]
  split
  · rfl
  · exact congrArg some Std.OrientedCmp.eq_swap

theorem totalCompare_eq_of_compare? {x y : Binary64} (h : x.compare? y = some o) :
    x.totalCompare y = o := by
  rw [compare?] at h
  rw [totalCompare]
  cases hx : x.isNaN <;> cases hy : y.isNaN <;> simp_all

end Binary64

namespace Value

/-- An integer and a float, in either order, of which the integer is rounded to the float. -/
def MeetRounded : Value → Value → Prop
  | int i, float x => Binary64.IsRounded i.toInt x
  | float x, int i => Binary64.IsRounded i.toInt x
  | _, _ => False

theorem MeetRounded.exists_int {a b : Value} (h : MeetRounded a b) :
    ∃ i : Int64, (a = int i ∨ b = int i) ∧ 2 ^ 53 < i.toInt.natAbs := by
  unfold MeetRounded at h
  split at h
  · next i x => exact ⟨i, .inl rfl, h.lt_natAbs⟩
  · next x i => exact ⟨i, .inr rfl, h.lt_natAbs⟩
  · cases h

/-- Where comparing orders two values, sorting orders them alike, unless an integer of more than
53 bits is rounded to a float that it is not. Comparing takes such two for equal, so that the two
orders never oppose each other. -/
theorem sortCompare_eq_iff_of_compare? {a b : Value} {o : Ordering} (h : a.compare? b = some o) :
    (a.sortCompare b = o ↔ ¬ MeetRounded a b) ∧
      (MeetRounded a b →
        o = .eq ∧ ∃ i : Int64, (a = int i ∨ b = int i) ∧ 2 ^ 53 < i.toInt.natAbs) := by
  suffices hrounded : (a.sortCompare b = o ↔ ¬ MeetRounded a b) ∧ (MeetRounded a b → o = .eq) from
    ⟨hrounded.1, fun hr => ⟨hrounded.2 hr, hr.exists_int⟩⟩
  have hagree : a.sortCompare b = o → ¬ MeetRounded a b →
      (a.sortCompare b = o ↔ ¬ MeetRounded a b) ∧ (MeetRounded a b → o = .eq) :=
    fun hsame hnot => ⟨iff_of_true hsame hnot, fun hr => absurd hr hnot⟩
  fun_cases compare? a b with
  | case1 => exact hagree (Option.some.inj h) id
  | case2 a b => exact hagree (Option.some.inj h) id
  | case3 i j => exact hagree (Option.some.inj h) id
  | case4 x y => exact hagree (Binary64.totalCompare_eq_of_compare? h) id
  | case5 i x => exact Binary64.compareInteger_eq_iff h
  | case6 x i =>
    rw [compare?, Binary64.compare?_eq_swap, Option.map_eq_some_iff] at h
    obtain ⟨o', h, rfl⟩ := h
    obtain ⟨hiff, heq⟩ := Binary64.compareInteger_eq_iff h
    rw [sortCompare, Ordering.swap_inj]
    refine ⟨hiff, fun hr => ?_⟩
    rw [heq hr]
    rfl
  | case7 s t => exact hagree (Option.some.inj h) id
  | case8 t u => exact hagree (Option.some.inj h) id
  | case9 a b =>
    rw [compare?] at h
    · cases h
    all_goals assumption

/-- The first integer that is rounded to another number is above the float it is equal to. -/
theorem sortCompare_of_first_rounded :
    let i : Value := .int 9007199254740993
    let x : Value := .float (Binary64.ofBits 0x4340000000000000)
    i.compare? x = some .eq ∧ MeetRounded i x ∧ i.sortCompare x ≠ .eq := by
  intro i x
  have hcompare : i.compare? x = some .eq := by decide +kernel
  have hrounded : MeetRounded i x := by
    refine ⟨?_, ?_, ?_⟩ <;> decide +kernel
  refine ⟨hcompare, hrounded, ?_⟩
  rw [ne_eq, (sortCompare_eq_iff_of_compare? hcompare).1, not_not]
  exact hrounded

end Value
end TableQuery
