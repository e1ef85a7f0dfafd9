import TableQuery.Proofs.Condition.Casting

/-! Rows tried against two conditions that are joined. The right side meets the rows that the
left side leaves undecided, in their order, so that a join over rows is its two sides run one
after the other. -/
namespace TableQuery.Condition
variable {α : Type}

def sift : Condition → List (Row × α) → List (Row × α) × List (Row × α)
  | _, [] => ([], [])
  | c, p :: rest =>
    let (met, missed) := sift (c.test p.1).2 rest
    if (c.test p.1).1 then (p :: met, missed) else (met, p :: missed)

def undecided (k : Connective) (c : Condition) (tagged : List (Row × α)) : List (Row × α) :=
  match k with
  | .and => (c.sift tagged).1
  | .or => (c.sift tagged).2

def rejected (c : Condition) (rows : List Row) : List Row := (c.sift rows.zipIdx).2.map Prod.fst

theorem sift_cons_of_met {c : Condition} {p : Row × α} (h : (c.test p.1).1 = true)
    (rest : List (Row × α)) :
    c.sift (p :: rest) =
      (p :: ((c.test p.1).2.sift rest).1, ((c.test p.1).2.sift rest).2) := by
  simp [sift, h]

theorem sift_cons_of_missed {c : Condition} {p : Row × α} (h : (c.test p.1).1 = false)
    (rest : List (Row × α)) :
    c.sift (p :: rest) =
      (((c.test p.1).2.sift rest).1, p :: ((c.test p.1).2.sift rest).2) := by
  simp [sift, h]

theorem select_cons_of_met {c : Condition} {row : Row} (h : (c.test row).1 = true)
    (rows : List Row) :
    c.select (row :: rows) =
      (row :: ((c.test row).2.select rows).1, ((c.test row).2.select rows).2) := by
  simp [select_cons, h]

theorem select_cons_of_missed {c : Condition} {row : Row} (h : (c.test row).1 = false)
    (rows : List Row) : c.select (row :: rows) = (c.test row).2.select rows := by
  simp [select_cons, h]

/-- Without the tags, the rows that meet a condition are those that it selects. -/
theorem map_fst_sift (c : Condition) (tagged : List (Row × α)) :
    (c.sift tagged).1.map Prod.fst = (c.select (tagged.map Prod.fst)).1 := by
  induction tagged generalizing c with
  | nil => rfl
  | cons p rest ih =>
    cases h : (c.test p.1).1 with
    | true => rw [sift_cons_of_met h, List.map_cons, List.map_cons, select_cons_of_met h, ih]
    | false => rw [sift_cons_of_missed h, List.map_cons, select_cons_of_missed h, ih]

/-- The rows that meet a condition and those that do not keep their order. -/
theorem sift_sublist (c : Condition) (tagged : List (Row × α)) :
    (c.sift tagged).1.Sublist tagged ∧ (c.sift tagged).2.Sublist tagged := by
  induction tagged generalizing c with
  | nil => exact ⟨List.Sublist.slnil, List.Sublist.slnil⟩
  | cons p rest ih =>
    obtain ⟨hmet, hmissed⟩ := ih (c.test p.1).2
    cases h : (c.test p.1).1 with
    | true =>
      rw [sift_cons_of_met h]
      exact ⟨hmet.cons_cons p, hmissed.cons p⟩
    | false =>
      rw [sift_cons_of_missed h]
      exact ⟨hmet.cons p, hmissed.cons_cons p⟩

/-- Every row meets the condition or does not. -/
theorem sift_perm (c : Condition) (tagged : List (Row × α)) :
    ((c.sift tagged).1 ++ (c.sift tagged).2).Perm tagged := by
  induction tagged generalizing c with
  | nil => exact List.Perm.refl _
  | cons p rest ih =>
    cases h : (c.test p.1).1 with
    | true =>
      rw [sift_cons_of_met h]
      exact (ih _).cons p
    | false =>
      rw [sift_cons_of_missed h]
      exact List.perm_middle.trans ((ih _).cons p)

theorem undecided_cons_of_decisive {k : Connective} {c : Condition} {p : Row × α}
    (h : (c.test p.1).1 = k.decisive) (rest : List (Row × α)) :
    undecided k c (p :: rest) = undecided k (c.test p.1).2 rest := by
  cases k with
  | and => rw [undecided, sift_cons_of_missed h, undecided]
  | or => rw [undecided, sift_cons_of_met h, undecided]

theorem undecided_cons_of_ne {k : Connective} {c : Condition} {p : Row × α}
    (h : (c.test p.1).1 ≠ k.decisive) (rest : List (Row × α)) :
    undecided k c (p :: rest) = p :: undecided k (c.test p.1).2 rest := by
  cases k with
  | and => rw [undecided, sift_cons_of_met (eq_true_of_ne_false h), undecided]
  | or => rw [undecided, sift_cons_of_missed (eq_false_of_ne_true h), undecided]

/-- The left side is cast by all rows, the right side by those that the left leaves to it. -/
theorem after_join (k : Connective) (left right : Condition) (tagged : List (Row × α)) :
    (join k left right).after (tagged.map Prod.fst) =
      join k (left.after (tagged.map Prod.fst))
        (right.after ((undecided k left tagged).map Prod.fst)) := by
  induction tagged generalizing left right with
  | nil => cases k <;> rfl
  | cons p rest ih =>
    by_cases h : (left.test p.1).1 = k.decisive
    -- the right side does not meet this row, and stays as it is
    · rw [List.map_cons, after_cons, test_join_of_decisive h, ih, after_cons,
        undecided_cons_of_decisive h]
    · rw [List.map_cons, after_cons, test_join_of_ne h, ih, after_cons,
        undecided_cons_of_ne h, List.map_cons, after_cons]

/-- What meets an AND meets its right side among the rows that meet its left side. -/
theorem sift_join_and (left right : Condition) (tagged : List (Row × α)) :
    ((join .and left right).sift tagged).1 = (right.sift (left.sift tagged).1).1 := by
  induction tagged generalizing left right with
  | nil => rfl
  | cons p rest ih =>
    cases hleft : (left.test p.1).1 with
    | false =>
      have htest : (join .and left right).test p.1 = _ := test_join_of_decisive hleft
      rw [sift_cons_of_missed (by rw [htest]; rfl), htest, ih, sift_cons_of_missed hleft]
    | true =>
      have htest : (join .and left right).test p.1 = _ :=
        test_join_of_ne (ne_of_eq_of_ne hleft nofun)
      rw [sift_cons_of_met hleft]
      cases hright : (right.test p.1).1 with
      | false =>
        rw [sift_cons_of_missed (by rw [htest, hright]), htest, ih, sift_cons_of_missed hright]
      | true => rw [sift_cons_of_met (by rw [htest, hright]), htest, ih, sift_cons_of_met hright]

/-- What meets an OR meets its left side, or its right side among the other rows. -/
theorem sift_join_or (left right : Condition) (tagged : List (Row × α)) :
    ((join .or left right).sift tagged).1.Perm
      ((left.sift tagged).1 ++ (right.sift (left.sift tagged).2).1) := by
  induction tagged generalizing left right with
  | nil => exact List.Perm.refl _
  | cons p rest ih =>
    cases hleft : (left.test p.1).1 with
    | true =>
      have htest : (join .or left right).test p.1 = _ := test_join_of_decisive hleft
      rw [sift_cons_of_met (by rw [htest]; rfl), htest, sift_cons_of_met hleft]
      exact (ih _ _).cons p
    | false =>
      have htest : (join .or left right).test p.1 = _ :=
        test_join_of_ne (ne_of_eq_of_ne hleft nofun)
      rw [sift_cons_of_missed hleft]
      cases hright : (right.test p.1).1 with
      | false =>
        rw [sift_cons_of_missed (by rw [htest, hright]), htest, sift_cons_of_missed hright]
        exact ih _ _
      | true =>
        -- the row stands before all that follow, but behind what the left side has kept of them
        rw [sift_cons_of_met (by rw [htest, hright]), htest, sift_cons_of_met hright]
        exact ((ih _ _).cons p).trans List.perm_middle.symm

/-- A join over rows is its left side over all of them, then its right side over those that are
left to it: the rows kept, in their order, and the casts of both sides. -/
structure RunsInTurn (left right : Condition) (rows : List Row) : Prop where
  and : (join .and left right).select rows =
    ((right.select (left.select rows).1).1,
      join .and (left.select rows).2 (right.select (left.select rows).1).2)
  or_casts : ((join .or left right).select rows).2 =
    join .or (left.select rows).2 (right.select (left.rejected rows)).2
  or_rows : ∃ kept : List (Row × Nat), kept.map Prod.fst = ((join .or left right).select rows).1 ∧
    kept.Sublist rows.zipIdx ∧
    kept.Perm ((left.sift rows.zipIdx).1 ++ (right.sift (left.sift rows.zipIdx).2).1)
  met_left : (left.sift rows.zipIdx).1.map Prod.fst = (left.select rows).1
  met_right : (right.sift (left.sift rows.zipIdx).2).1.map Prod.fst =
    (right.select (left.rejected rows)).1
  parted : ((left.sift rows.zipIdx).1 ++ (left.sift rows.zipIdx).2).Perm rows.zipIdx

theorem runsInTurn (left right : Condition) (rows : List Row) : RunsInTurn left right rows where
  and := by
    have hafter := after_join .and left right rows.zipIdx
    have hkept := congrArg (List.map Prod.fst) (sift_join_and left right rows.zipIdx)
    simp only [undecided, map_fst_sift, List.zipIdx_map_fst] at hafter hkept
    exact Prod.ext hkept hafter
  or_casts := by
    have hafter := after_join .or left right rows.zipIdx
    rwa [List.zipIdx_map_fst] at hafter
  or_rows := by
    refine ⟨((join .or left right).sift rows.zipIdx).1, ?_, (sift_sublist _ _).1,
      sift_join_or left right rows.zipIdx⟩
    rw [map_fst_sift, List.zipIdx_map_fst]
  met_left := by rw [map_fst_sift, List.zipIdx_map_fst]
  met_right := map_fst_sift right _
  parted := sift_perm left _

end TableQuery.Condition
