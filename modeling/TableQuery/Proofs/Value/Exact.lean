import TableQuery.Proofs.Binary64.Exact
import TableQuery.Proofs.Value.SortOrder

/-! Sorting compares numbers as the numbers that they are. Nothing is rounded where an integer
meets a float, and so no two different numbers are alike. -/
namespace TableQuery

theorem Binary64.compare_ofUnits {u v : Int}
    (hu : u ∈ Set.Icc (-(unitsOf infinite : Int)) (unitsOf infinite))
    (hv : v ∈ Set.Icc (-(unitsOf infinite : Int)) (unitsOf infinite)) :
    compare (ofUnits u) (ofUnits v) = compare u v := by
  rcases Int.lt_trichotomy u v with hlt | rfl | hgt
  · rw [compare_lt_iff_lt.2 hlt, compare_lt_iff_lt]
    exact strictMonoOn_ofUnits hu hv hlt
  · rw [compare_eq_iff_eq.2 rfl, compare_eq_iff_eq.2 rfl]
  · rw [compare_gt_iff_gt.2 hgt, compare_gt_iff_gt]
    exact strictMonoOn_ofUnits hv hu hgt

namespace Value

/-- The number that a value is. A NaN is none, and an infinity is one on its side of all others. -/
noncomputable def extended? : Value → Option EReal
  | int i => some ((i.toInt : ℝ) : EReal)
  | float x => x.extended?
  | _ => none

def units? : Value → Option Int
  | int i => some (i.toInt * Binary64.one)
  | float x => if x.isNaN then none else some x.units
  | _ => none

theorem units?_float {x : Binary64} {u : Int} (h : (float x).units? = some u) :
    x.isNaN = false ∧ x.units = u := by
  rw [units?] at h
  cases hx : x.isNaN with
  | true =>
    rw [hx] at h
    cases h
  | false =>
    rw [hx] at h
    exact ⟨rfl, Option.some.inj h⟩

theorem extended?_eq (v : Value) : v.extended? = v.units?.map Binary64.ofUnits := by
  cases v with
  | int i => rw [extended?, units?, Option.map_some, Binary64.ofUnits_mul_one]
  | float x =>
    rw [extended?, units?]
    cases hx : x.isNaN with
    | true => rw [Binary64.extended?, hx, if_pos rfl, if_pos rfl, Option.map_none]
    | false => rw [Binary64.extended?_eq hx, if_neg Bool.false_ne_true, Option.map_some]
  | _ => rfl

theorem units?_mem {v : Value} {u : Int} (h : v.units? = some u) :
    u ∈ Set.Icc (-(Binary64.unitsOf Binary64.infinite : Int))
      (Binary64.unitsOf Binary64.infinite) := by
  cases v with
  | int i =>
    cases h
    have hlt := Binary64.natAbs_mul_one_lt i
    exact ⟨by omega, by omega⟩
  | float x =>
    obtain ⟨hx, rfl⟩ := units?_float h
    exact Binary64.units_mem hx
  | _ => cases h

/-- Sorting sees nothing of a number but its units. -/
theorem place_of_units? {v : Value} {u : Int} (h : v.units? = some u) :
    v.place = ⟨2, false, u, "", 0, 0⟩ := by
  cases v with
  | int i =>
    cases h
    rfl
  | float x =>
    obtain ⟨hx, rfl⟩ := units?_float h
    rw [place, hx, if_neg Bool.false_ne_true]
  | _ => cases h

theorem sortCompare_eq_compare {a b : Value} {r s : EReal} (ha : a.extended? = some r)
    (hb : b.extended? = some s) : a.sortCompare b = compare r s := by
  rw [extended?_eq] at ha hb
  obtain ⟨u, hu, rfl⟩ := Option.map_eq_some_iff.1 ha
  obtain ⟨v, hv, rfl⟩ := Option.map_eq_some_iff.1 hb
  rw [sortCompare_eq, place_of_units? hu, place_of_units? hv, Place.compare_units,
    Binary64.compare_ofUnits (units?_mem hu) (units?_mem hv)]

structure ComparesExactly (i : Int64) (x : Binary64) : Prop where
  nan : x.isNaN = true → Binary64.compareInteger i x = .lt
  infinite : x.isInfinite = true →
    Binary64.compareInteger i x = if x.negative then .gt else .lt
  finite : x.isNaN = false → x.isInfinite = false →
    Binary64.compareInteger i x = compare (i.toInt : ℝ) x.real

theorem compareInteger_eq_of_extended? {i : Int64} {x : Binary64} {r : EReal}
    (h : x.extended? = some r) :
    Binary64.compareInteger i x = compare ((i.toInt : ℝ) : EReal) r :=
  sortCompare_eq_compare (a := int i) (b := float x) rfl h

theorem comparesExactly (i : Int64) (x : Binary64) : ComparesExactly i x where
  nan hx := by rw [Binary64.compareInteger_eq_compare_units, hx, if_pos rfl]
  infinite hx := by
    have hnan : x.isNaN = false := by
      rw [Binary64.isInfinite, beq_iff_eq] at hx
      rw [Binary64.isNaN, hx, decide_eq_false (Nat.lt_irrefl _)]
    have hnumber : x.extended? = some (if x.negative then ⊥ else ⊤) := by
      rw [Binary64.extended?, hnan, hx, if_neg Bool.false_ne_true, if_pos rfl]
    rw [compareInteger_eq_of_extended? hnumber]
    cases x.negative with
    | true => exact compare_gt_iff_gt.2 (EReal.bot_lt_coe _)
    | false => exact compare_lt_iff_lt.2 (EReal.coe_lt_top _)
  finite hnan hx := by
    have hnumber : x.extended? = some (x.real : EReal) := by
      rw [Binary64.extended?, hnan, hx, if_neg Bool.false_ne_true, if_neg Bool.false_ne_true]
    rw [compareInteger_eq_of_extended? hnumber, ← cmp_eq_compare, ← cmp_eq_compare]
    exact EReal.coe_strictMono.cmp_map_eq _ _

/-- Numbers of both kinds are sorted as the numbers that they are, whole and fraction, so that an
integer is like no float but one that stands for it. -/
theorem comparesExactly_and_sortCompare_eq_compare :
    (∀ (i : Int64) (x : Binary64), ComparesExactly i x) ∧
    (∀ (a b : Value) (r s : EReal), a.extended? = some r → b.extended? = some s →
      a.sortCompare b = compare r s) ∧
    (∀ (i : Int64) (x : Binary64), (int i).sortCompare (float x) = .eq ↔
      x.extended? = some ((i.toInt : ℝ) : EReal)) := by
  refine ⟨comparesExactly, fun a b r s => sortCompare_eq_compare, fun i x => ?_⟩
  cases hx : x.extended? with
  | none =>
    have hnan : x.isNaN = true := by
      by_contra hnumber
      rw [Binary64.extended?_eq (Bool.not_eq_true _ ▸ hnumber)] at hx
      cases hx
    rw [sortCompare, (comparesExactly i x).nan hnan]
    exact iff_of_false nofun nofun
  | some r =>
    rw [sortCompare, compareInteger_eq_of_extended? hx, compare_eq_iff_eq, Option.some_inj,
      eq_comm]

end Value
end TableQuery
