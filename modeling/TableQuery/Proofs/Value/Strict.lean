import TableQuery.Proofs.Value.Agreement

/-! Which values are greater than which. Integers are compared as they are, but are rounded where
they meet a float. Rounding turns no order around, and so greater than greater is greater. -/
namespace TableQuery

instance : Std.TransCmp Timestamp.compare :=
  inferInstanceAs (Std.TransCmp (compareLex (compareOn Timestamp.seconds)
    (compareOn Timestamp.nanos)))

theorem Binary64.compare?_eq_gt_iff {x y : Binary64} :
    x.compare? y = some .gt ↔ x.isNaN = false ∧ y.isNaN = false ∧ y.units < x.units := by
  rw [compare?]
  cases x.isNaN <;> cases y.isNaN <;> simp [Int.compare_eq_gt]

namespace Value

def rounded? : Value → Option Binary64
  | int i => some (Binary64.ofInteger i.toInt)
  | float x => some x
  | _ => none

inductive Exceeds : Value → Value → Prop
  | bool {a b : Bool} (h : compare a b = .gt) : Exceeds (bool a) (bool b)
  | text {s t : String} (h : compare s t = .gt) : Exceeds (text s) (text t)
  | time {t u : Timestamp} (h : t.compare u = .gt) : Exceeds (time t) (time u)
  | integers {i j : Int64} (h : j.toInt < i.toInt) : Exceeds (int i) (int j)
  | rounded {a b : Value} {x y : Binary64} (ha : a.rounded? = some x) (hb : b.rounded? = some y)
      (hx : x.isNaN = false) (hy : y.isNaN = false) (h : y.units < x.units) : Exceeds a b

variable {a b c : Value}

theorem exceeds_of_compare?_rounded {x y : Binary64} (ha : a.rounded? = some x)
    (hb : b.rounded? = some y) (h : x.compare? y = some .gt) : Exceeds a b := by
  obtain ⟨hx, hy, hlt⟩ := Binary64.compare?_eq_gt_iff.1 h
  exact .rounded ha hb hx hy hlt

theorem compare?_eq_gt_iff : a.compare? b = some .gt ↔ Exceeds a b := by
  constructor
  · intro h
    fun_cases compare? a b with
    | case1 => cases h
    | case2 a b => exact .bool (Option.some.inj h)
    | case3 i j => exact .integers (Int.compare_eq_gt.1 (Option.some.inj h))
    | case4 x y => exact exceeds_of_compare?_rounded rfl rfl h
    | case5 i x => exact exceeds_of_compare?_rounded rfl rfl h
    | case6 x i => exact exceeds_of_compare?_rounded rfl rfl h
    | case7 s t => exact .text (Option.some.inj h)
    | case8 t u => exact .time (Option.some.inj h)
    | case9 a b =>
      rw [compare?] at h
      · cases h
      all_goals assumption
  · intro h
    cases h with
    | bool h => exact congrArg some h
    | text h => exact congrArg some h
    | time h => exact congrArg some h
    | integers h => exact congrArg some (Int.compare_eq_gt.2 h)
    | rounded ha hb hx hy h =>
      have hcompare := Binary64.compare?_eq_gt_iff.2 ⟨hx, hy, h⟩
      cases a with
      | int i =>
        cases ha
        cases b with
        | int j =>
          -- were the second integer not less, it would not be rounded to less
          cases hb
          have hlt : j.toInt < i.toInt := by
            by_contra hle
            exact absurd (Binary64.units_ofInteger_mono (Int.not_lt.1 hle)) (Int.not_le.2 h)
          exact congrArg some (Int.compare_eq_gt.2 hlt)
        | float y =>
          cases hb
          exact hcompare
        | _ => cases hb
      | float x =>
        cases ha
        cases b with
        | int j =>
          cases hb
          exact hcompare
        | float y =>
          cases hb
          exact hcompare
        | _ => cases hb
      | _ => cases ha

theorem not_exceeds_self (a : Value) : ¬ Exceeds a a := by
  intro h
  cases h with
  | bool h => exact absurd (h.symm.trans Std.ReflCmp.compare_self) (by decide)
  | text h => exact absurd (h.symm.trans Std.ReflCmp.compare_self) (by decide)
  | time h => exact absurd (h.symm.trans Std.ReflCmp.compare_self) (by decide)
  | integers h => exact Int.lt_irrefl _ h
  | rounded ha hb _ _ h =>
    rw [ha] at hb
    cases hb
    exact Int.lt_irrefl _ h

theorem Exceeds.ne_null (h : Exceeds a b) : a ≠ null := by
  intro ha
  subst ha
  cases h with
  | rounded ha _ _ _ _ => cases ha

/-- Values of different kinds are not in order, where integers and floats are of one kind. -/
theorem Exceeds.rank_eq (h : Exceeds a b) : a.rank = b.rank := by
  cases h with
  | bool _ => rfl
  | text _ => rfl
  | time _ => rfl
  | integers _ => rfl
  | rounded ha hb _ _ _ =>
    have hnumber : ∀ {v : Value} {x : Binary64}, v.rounded? = some x → v.rank = 2 := by
      intro v x hv
      cases v with
      | int i => rfl
      | float y => rfl
      | _ => cases hv
    rw [hnumber ha, hnumber hb]

theorem Exceeds.trans (h : Exceeds a b) (h' : Exceeds b c) : Exceeds a c := by
  cases h with
  | bool h =>
    cases h' with
    | bool h' => exact .bool (Std.TransCmp.gt_trans h h')
    | rounded hb _ _ _ _ => cases hb
  | text h =>
    cases h' with
    | text h' => exact .text (Std.TransCmp.gt_trans h h')
    | rounded hb _ _ _ _ => cases hb
  | time h =>
    cases h' with
    | time h' => exact .time (Std.TransCmp.gt_trans h h')
    | rounded hb _ _ _ _ => cases hb
  | integers h =>
    cases h' with
    | integers h' => exact .integers (Int.lt_trans h' h)
    | rounded hb hc _ hz h' =>
      cases hb
      have hle := Binary64.units_ofInteger_mono (Int.le_of_lt h)
      exact .rounded rfl hc (Binary64.isNaN_ofInteger _) hz (Int.lt_of_lt_of_le h' hle)
  | rounded ha hb hx _ h =>
    cases h' with
    | bool _ => cases hb
    | text _ => cases hb
    | time _ => cases hb
    | integers h' =>
      cases hb
      have hle := Binary64.units_ofInteger_mono (Int.le_of_lt h')
      exact .rounded ha rfl hx (Binary64.isNaN_ofInteger _) (Int.lt_of_le_of_lt hle h)
    | rounded hb' hc _ hz h' =>
      rw [hb] at hb'
      cases hb'
      exact .rounded ha hc hx hz (Int.lt_trans h' h)

end Value
end TableQuery
