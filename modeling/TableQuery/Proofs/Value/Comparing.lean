import TableQuery.Condition.Relation
import TableQuery.Proofs.Value.Strict

/-! The laws of comparing values. Equality and order belong together, less than is a strict order
over values of all kinds, and every relation can be told from the outcome of a comparison. -/
namespace TableQuery

/-- A comparison with an equality of its own, in which less than is a strict order. Things need
not be comparable, and things that are equal to one need not be equal to each other. -/
structure IsStrictComparison {α : Type} (equals : α → α → Bool)
    (compare? : α → α → Option Ordering) : Prop where
  eq_iff : ∀ a b, compare? a b = some .eq ↔ equals a b = true
  swap : ∀ a b, compare? b a = (compare? a b).map Ordering.swap
  irrefl : ∀ a, compare? a a ≠ some .lt
  trans : ∀ a b c, compare? a b = some .lt → compare? b c = some .lt → compare? a c = some .lt

structure IsRelationsOf {α : Type} (compare? : α → α → Option Ordering)
    (holds : Relation → α → α → Bool) : Prop where
  lt_iff : ∀ a b, holds .lt a b = true ↔ compare? a b = some .lt
  eq_iff : ∀ a b, holds .eq a b = true ↔ compare? a b = some .eq
  ne : ∀ a b, holds .ne a b = !holds .eq a b
  le : ∀ a b, holds .le a b = (holds .lt a b || holds .eq a b)
  ge : ∀ a b, holds .ge a b = (holds .gt a b || holds .eq a b)
  swap : ∀ a b, holds .lt a b = holds .gt b a
  exclusive : ∀ a b, ∀ r ∈ [Relation.lt, .eq, .gt], ∀ r' ∈ [Relation.lt, .eq, .gt],
    holds r a b = true → holds r' a b = true → r = r'
  incomparable : ∀ a b, compare? a b = none →
    ∀ r ∈ [Relation.lt, .le, .gt, .ge], holds r a b = false

theorem Timestamp.compare_eq_eq_iff {t u : Timestamp} : t.compare u = .eq ↔ t = u := by
  cases t
  cases u
  simp [compare, Ordering.then_eq_eq]

theorem Binary64.equals_comm (x y : Binary64) : x.equals y = y.equals x := by
  rw [equals, equals, Bool.and_comm (!x.isNaN), Bool.beq_comm]

theorem Binary64.compare?_eq_eq_iff {x y : Binary64} :
    x.compare? y = some .eq ↔ x.equals y = true := by
  rw [compare?, equals]
  cases x.isNaN <;> cases y.isNaN <;> simp

namespace Value
variable {a b c : Value}

theorem compare?_eq_eq_iff : a.compare? b = some .eq ↔ a.equals b = true := by
  fun_cases compare? a b with
  | case1 => exact iff_of_true rfl rfl
  | case2 a b => rw [equals, Option.some_inj, Std.compare_eq_iff_eq, beq_iff_eq]
  | case3 i j => rw [equals, Option.some_inj, Int.compare_eq_eq, Int64.toInt_inj, beq_iff_eq]
  | case4 x y => exact Binary64.compare?_eq_eq_iff
  | case5 i x => exact Binary64.compare?_eq_eq_iff
  | case6 x i =>
    rw [equals, Binary64.equals_comm]
    exact Binary64.compare?_eq_eq_iff
  | case7 s t => rw [equals, Option.some_inj, Std.compare_eq_iff_eq, beq_iff_eq]
  | case8 t u => rw [equals, Option.some_inj, Timestamp.compare_eq_eq_iff, beq_iff_eq]
  | case9 a b =>
    rw [equals]
    · exact iff_of_false nofun nofun
    all_goals assumption

theorem compare?_swap (a b : Value) : b.compare? a = (a.compare? b).map Ordering.swap := by
  cases a with
  | null => cases b <;> rfl
  | bool a =>
    cases b with
    | bool b => exact congrArg some Std.OrientedCmp.eq_swap
    | _ => rfl
  | int i =>
    cases b with
    | int j => exact congrArg some Std.OrientedCmp.eq_swap
    | float y => exact Binary64.compare?_eq_swap _ _
    | _ => rfl
  | float x =>
    cases b with
    | int j => exact Binary64.compare?_eq_swap _ _
    | float y => exact Binary64.compare?_eq_swap _ _
    | _ => rfl
  | text s =>
    cases b with
    | text t => exact congrArg some Std.OrientedCmp.eq_swap
    | _ => rfl
  | time t =>
    cases b with
    | time u => exact congrArg some Std.OrientedCmp.eq_swap
    | _ => rfl

theorem compare?_eq_lt_iff : a.compare? b = some .lt ↔ Exceeds b a := by
  rw [← compare?_eq_gt_iff, compare?_swap a b]
  cases a.compare? b with
  | none => simp
  | some o => cases o <;> simp

theorem isStrictComparison : IsStrictComparison equals compare? where
  eq_iff _ _ := compare?_eq_eq_iff
  swap := compare?_swap
  irrefl a h := not_exceeds_self a (compare?_eq_lt_iff.1 h)
  trans _ _ _ hab hbc :=
    compare?_eq_lt_iff.2 ((compare?_eq_lt_iff.1 hbc).trans (compare?_eq_lt_iff.1 hab))

end Value

namespace Relation

def outcomes : Relation → List (Option Ordering)
  | eq => [some .eq]
  | ne => [none, some .lt, some .gt]
  | lt => [some .lt]
  | le => [some .lt, some .eq]
  | gt => [some .gt]
  | ge => [some .gt, some .eq]

theorem holds_eq_contains (r : Relation) (a b : Value) :
    r.holds a b = r.outcomes.contains (a.compare? b) := by
  have hequals : a.equals b = (a.compare? b == some .eq) := by
    rw [Bool.eq_iff_iff, ← Value.compare?_eq_eq_iff, beq_iff_eq]
  simp only [holds, hequals]
  cases a.compare? b with
  | none => cases r <;> rfl
  | some o => cases o <;> cases r <;> rfl

theorem isRelationsOf : IsRelationsOf Value.compare? holds where
  lt_iff a b := by rw [holds, beq_iff_eq]
  eq_iff a b := by rw [holds, Value.compare?_eq_eq_iff]
  ne a b := rfl
  le a b := by
    simp only [holds_eq_contains]
    cases a.compare? b with
    | none => rfl
    | some o => cases o <;> rfl
  ge a b := by
    simp only [holds_eq_contains]
    cases a.compare? b with
    | none => rfl
    | some o => cases o <;> rfl
  swap a b := by
    rw [holds_eq_contains, holds_eq_contains, Value.compare?_swap a b]
    cases a.compare? b with
    | none => rfl
    | some o => cases o <;> rfl
  exclusive a b := by
    simp only [holds_eq_contains]
    cases a.compare? b with
    | none => decide
    | some o => cases o <;> decide
  incomparable a b h := by
    simp only [holds_eq_contains, h]
    decide

end Relation

/-- Comparing orders values strictly, and the six relations of a condition are those of comparing. -/
theorem comparing_isStrict :
    IsStrictComparison Value.equals Value.compare? ∧
      IsRelationsOf Value.compare? Relation.holds :=
  ⟨Value.isStrictComparison, Relation.isRelationsOf⟩

end TableQuery
