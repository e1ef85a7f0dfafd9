import TableQuery.Proofs.Grouping.Keys
import TableQuery.Proofs.Value.Equality

/-! The buckets of a grouping are the classes of equality, within one kind of values. A bucket goes
by the encoding of a float and equality by its value, and these differ for the two zeros only. -/
namespace TableQuery

namespace Value
variable {a b : Value} {x y : Binary64}

/-- Equal values of one kind, and any NaN with itself. -/
def Alike (a b : Value) : Prop :=
  a.kind = b.kind ∧ a.equals b = true ∨ a.isNaN = true ∧ a = b

instance (a b : Value) : Decidable (Alike a b) := inferInstanceAs (Decidable (_ ∨ _))

theorem kind_groupKey (a : Value) : a.groupKey.kind = a.kind := by
  cases a with
  | float x =>
    rw [groupKey]
    split <;> rfl
  | _ => rfl

theorem groupKey_eq_self (h : a.kind ≠ .float) : a.groupKey = a := by
  cases a with
  | float x => exact absurd rfl h
  | _ => rfl

theorem isNaN_eq_false (h : a.kind ≠ .float) : a.isNaN = false := by
  cases a with
  | float x => exact absurd rfl h
  | _ => rfl

theorem groupKey_float_eq_iff :
    (float x).groupKey = (float y).groupKey ↔ x = y ∨ x.isZero = true ∧ y.isZero = true := by
  constructor
  · intro h
    rw [groupKey, groupKey] at h
    split at h
    · next hx =>
      split at h
      · next hy => exact .inr ⟨hx, hy⟩
      · next hy =>
        cases h
        exact absurd rfl hy
    · next hx =>
      split at h
      · cases h
        exact absurd rfl hx
      · exact .inl (float.inj h)
  · rintro (rfl | ⟨hx, hy⟩)
    · rfl
    · rw [groupKey, groupKey, if_pos hx, if_pos hy]

/-- Equality of other values than floats is that of their data. -/
theorem equals_iff_eq (hkind : a.kind = b.kind) (h : a.kind ≠ .float) :
    a.equals b = true ↔ a = b := by
  rw [equals_iff_same]
  constructor
  · intro hsame
    cases hsame with
    | self => rfl
    | rounded _ _ hfloat => exact absurd (hfloat.elim id hkind.trans) h
  · rintro rfl
    exact .self (isNaN_eq_false h)

theorem float_alike_iff :
    Alike (float x) (float y) ↔ x = y ∨ x.isZero = true ∧ y.isZero = true := by
  rw [Alike, equals, Binary64.equals_iff, Binary64.units_inj, isNaN, float.injEq]
  constructor
  · rintro (⟨-, -, -, h⟩ | ⟨-, h⟩)
    · exact h
    · exact .inl h
  · rintro (rfl | ⟨hx, hy⟩)
    · cases hx : x.isNaN with
      | true => exact .inr ⟨rfl, rfl⟩
      | false => exact .inl ⟨rfl, rfl, rfl, .inl rfl⟩
    · exact .inl ⟨rfl, Binary64.isNaN_of_isZero hx, Binary64.isNaN_of_isZero hy, .inr ⟨hx, hy⟩⟩

theorem groupKey_eq_iff : a.groupKey = b.groupKey ↔ Alike a b := by
  by_cases hkind : a.kind = b.kind
  · by_cases hfloat : a.kind = .float
    · obtain ⟨x, rfl⟩ := exists_float_of_kind hfloat
      obtain ⟨y, rfl⟩ := exists_float_of_kind hkind.symm
      rw [groupKey_float_eq_iff, float_alike_iff]
    · rw [groupKey_eq_self hfloat, groupKey_eq_self (hkind ▸ hfloat), Alike,
        isNaN_eq_false hfloat, equals_iff_eq hkind hfloat]
      exact ⟨fun h => .inl ⟨hkind, h⟩, fun h => h.elim And.right nofun⟩
  · refine iff_of_false (fun h => hkind ?_) (fun h => hkind ?_)
    · rw [← kind_groupKey a, h, kind_groupKey]
    · exact h.elim And.left fun h => congrArg kind h.2

/-- A relation of values that is equality within each kind, and sameness of the encoding on NaNs.
An integer is not related to the floats that it is equal to. -/
structure FollowsEquality (same : Value → Value → Prop) : Prop where
  equivalence : Equivalence same
  equal_iff : ∀ a b, a.isNaN = false → b.isNaN = false →
    (same a b ↔ a.kind = b.kind ∧ a.equals b = true)
  nan_iff : ∀ (x : Binary64) b, x.isNaN = true →
    (same (float x) b ↔ ∃ y, b = float y ∧ x.bits = y.bits)
  int_float : ∀ i : Int64,
    (∃ x, (int i).equals (float x) = true) ∧ ∀ x, ¬ same (int i) (float x)

theorem equals_ofInteger (i : Int64) :
    (int i).equals (float (Binary64.ofInteger i.toInt)) = true :=
  Binary64.equals_iff.2 ⟨Binary64.isNaN_ofInteger _, Binary64.isNaN_ofInteger _, rfl⟩

theorem followsEquality_groupKey : FollowsEquality fun a b => a.groupKey = b.groupKey where
  equivalence := ⟨fun _ => rfl, Eq.symm, Eq.trans⟩
  equal_iff a b ha hb := by
    rw [groupKey_eq_iff, Alike, ha]
    exact or_iff_left nofun
  nan_iff x b hx := by
    rw [groupKey_eq_iff]
    constructor
    · rintro (⟨hkind, h⟩ | ⟨-, rfl⟩)
      · obtain ⟨y, rfl⟩ := exists_float_of_kind hkind.symm
        rw [equals, Binary64.equals_iff, hx] at h
        cases h.1
      · exact ⟨x, rfl, rfl⟩
    · rintro ⟨y, rfl, h⟩
      rw [Binary64.bits_inj.1 h] at hx ⊢
      exact .inr ⟨hx, rfl⟩
  int_float i := by
    refine ⟨⟨_, equals_ofInteger i⟩, fun x h => ?_⟩
    have hkind := congrArg kind h
    rw [kind_groupKey, kind_groupKey] at hkind
    cases hkind

end Value

namespace Grouping

theorem buckets_eq_classes (key : String) (rows : List Row) :
    buckets (sameKey key) rows = classes [key] rows := by
  have hbuckets : buckets (sameKey key) rows = _ := buckets_eq (keyOf key) rows
  rw [hbuckets, classes, nested, List.map_flatMap, List.map_eq_flatMap]
  refine List.flatMap_congr fun v hv => ?_
  obtain ⟨row, hrow, rfl⟩ := List.mem_map.1 (List.mem_eraseDups.1 hv)
  have hne : (rows.filter (keyOf key · == keyOf key row)).isEmpty = false := by
    rw [List.isEmpty_eq_false_iff_exists_mem]
    exact ⟨row, List.mem_filter.2 ⟨hrow, beq_self_eq_true _⟩⟩
  rw [nested, hne]
  simp [members, signature]

/-- A bucket holds the rows whose values are alike to that of one row, and no others. -/
theorem mem_buckets {key : String} {rows bucket : List Row} :
    bucket ∈ buckets (sameKey key) rows ↔
      ∃ row ∈ rows, bucket = rows.filter fun r => (r.value key).Alike (row.value key) := by
  rw [buckets_eq_classes, mem_classes]
  simp only [List.forall_mem_singleton, keyOf, Value.groupKey_eq_iff]

/-- Rows share a bucket if their values are equal and of one kind. An integer and a float never do,
and a NaN shares one with its own encoding. -/
theorem buckets_follow_equality :
    Value.FollowsEquality (fun a b => a.groupKey = b.groupKey) ∧
      ∀ (key : String) (rows : List Row), (buckets (sameKey key) rows).Nodup ∧
        ∀ bucket, bucket ∈ buckets (sameKey key) rows ↔
          ∃ row ∈ rows, bucket = rows.filter fun r => (r.value key).Alike (row.value key) := by
  refine ⟨Value.followsEquality_groupKey, fun key rows => ⟨?_, fun bucket => mem_buckets⟩⟩
  rw [buckets_eq_classes]
  exact nodup_classes [key] rows

/-- The two zeros have one key, and a float that is one has another than the integer. -/
theorem keys_of_equal_numbers :
    let zero : Value := .float (Binary64.zero false)
    let negative : Value := .float (Binary64.zero true)
    let i : Value := .int 1
    let x : Value := .float (Binary64.ofBits 0x3FF0000000000000)
    zero.groupKey = negative.groupKey ∧ i.equals x = true ∧ i.groupKey ≠ x.groupKey := by
  intro zero negative i x
  obtain ⟨hkeys, -⟩ := buckets_follow_equality
  have hzeros : zero.equals negative = true := by decide
  have hones : i.equals x = true := by decide +kernel
  exact ⟨(hkeys.equal_iff zero negative rfl rfl).2 ⟨rfl, hzeros⟩, hones, (hkeys.int_float 1).2 _⟩

end Grouping
end TableQuery
