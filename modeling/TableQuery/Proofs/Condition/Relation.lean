import Mathlib.Data.Prod.Lex
import TableQuery.Proofs.Value.Kind

/-! Relations between integers, and between times, are those of their orders. -/
namespace TableQuery

def Relation.Between {α : Type} [LinearOrder α] (r : Relation) (x y : α) : Prop :=
  match r with
  | eq => x = y
  | ne => x ≠ y
  | lt => x < y
  | le => x ≤ y
  | gt => x > y
  | ge => x ≥ y

instance {α : Type} [LinearOrder α] (r : Relation) (x y : α) : Decidable (r.Between x y) :=
  match r with
  | .eq => inferInstanceAs (Decidable (x = y))
  | .ne => inferInstanceAs (Decidable (x ≠ y))
  | .lt => inferInstanceAs (Decidable (x < y))
  | .le => inferInstanceAs (Decidable (x ≤ y))
  | .gt => inferInstanceAs (Decidable (x > y))
  | .ge => inferInstanceAs (Decidable (x ≥ y))

def Timestamp.instant (t : Timestamp) : Int ×ₗ Nat := toLex (t.seconds, t.nanos)

def Value.meets (r : Relation) : Value → Value → Bool
  | int i, int j => decide (r.Between i.toInt j.toInt)
  | time t, time u => decide (r.Between t.instant u.instant)
  | _, _ => false

/-- Values that compare as two things of an order do are in the relations that those are in. -/
theorem Relation.holds_iff_between {α : Type} [LinearOrder α] {a b : Value} {x y : α}
    (hequals : a.equals b = true ↔ x = y) (hcompare : a.compare? b = some (compare x y))
    (r : Relation) : r.holds a b = true ↔ r.Between x y := by
  cases r with
  | eq => exact hequals
  | ne => rw [holds, Bool.not_eq_true', ← Bool.not_eq_true, hequals, Between]
  | lt => simp only [holds, hcompare, beq_iff_eq, Option.some_inj, compare_lt_iff_lt, Between]
  | le =>
    simp only [holds, hcompare, Bool.or_eq_true, beq_iff_eq, Option.some_inj, compare_lt_iff_lt,
      compare_eq_iff_eq, ← le_iff_lt_or_eq, Between]
  | gt => simp only [holds, hcompare, beq_iff_eq, Option.some_inj, compare_gt_iff_gt, Between]
  | ge =>
    simp only [holds, hcompare, Bool.or_eq_true, beq_iff_eq, Option.some_inj, compare_gt_iff_gt,
      compare_eq_iff_eq, Between, ge_iff_le, le_iff_lt_or_eq, @eq_comm _ y x]

theorem Timestamp.instant_inj {t u : Timestamp} : t.instant = u.instant ↔ t = u := by
  cases t
  cases u
  simp [instant]

theorem Relation.holds_int {a : Value} (h : a.kind = .int) (r : Relation) (j : Int64) :
    r.holds a (.int j) = a.meets r (.int j) := by
  cases a with
  | int i =>
    rw [Value.meets, Bool.eq_iff_iff, decide_eq_true_iff]
    refine holds_iff_between ?_ rfl r
    rw [Value.equals, beq_iff_eq, Int64.toInt_inj]
  | _ => cases h

theorem Relation.holds_time {a : Value} (h : a.kind = .time) (r : Relation) (u : Timestamp) :
    r.holds a (.time u) = a.meets r (.time u) := by
  cases a with
  | time t =>
    rw [Value.meets, Bool.eq_iff_iff, decide_eq_true_iff]
    refine holds_iff_between ?_ rfl r
    rw [Value.equals, beq_iff_eq, Timestamp.instant_inj]
  | _ => cases h

end TableQuery
