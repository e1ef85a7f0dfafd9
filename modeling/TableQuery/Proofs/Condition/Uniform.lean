import TableQuery.Proofs.Condition.Casting
import TableQuery.Proofs.Value.Kind

/-! Rows with values of one kind in each column of a condition. Whichever of them casts a literal,
it becomes the same value, so that the condition judges every row as if it had met no other. -/
namespace TableQuery.Condition
variable {c : Condition} {row other : Row} {rows : List Row}

def IsUniform (c : Condition) (rows : List Row) : Prop :=
  ∀ column ∈ c.columns, ∀ a ∈ rows, ∀ b ∈ rows, (a.value column).kind = (b.value column).kind

instance (c : Condition) (rows : List Row) : Decidable (c.IsUniform rows) :=
  inferInstanceAs (Decidable (∀ column ∈ c.columns, ∀ a ∈ rows, ∀ b ∈ rows, _ = _))

def IsCastAs (c : Condition) (row : Row) : Prop :=
  ∀ d ∈ c.leaves, ∀ v, d.cast = some v → v = Value.ofLiteral (row.value d.column) d.literal

theorem isCastAs_of_uncast (h : ∀ d ∈ c.leaves, d.cast = none) (row : Row) : c.IsCastAs row := by
  intro d hd v hv
  rw [h d hd] at hv
  cases hv

theorem isCastAs_leaf {d : Comparison} : (leaf d).IsCastAs row ↔
    ∀ v, d.cast = some v → v = Value.ofLiteral (row.value d.column) d.literal := by
  rw [IsCastAs, leaves, List.forall_mem_singleton]

theorem isCastAs_join {k : Connective} {left right : Condition} :
    (join k left right).IsCastAs row ↔ left.IsCastAs row ∧ right.IsCastAs row := by
  rw [IsCastAs, leaves, List.forall_mem_append]
  rfl

/-- A row judges by literals that it would have cast itself as it does by none. -/
theorem test_fst_of_isCastAs (h : c.IsCastAs row) : (c.test row).1 = (c.uncast.test row).1 := by
  induction c with
  | leaf d =>
    cases hcast : d.cast with
    | none => simp [test, uncast, Comparison.test, hcast]
    | some v => simp [test, uncast, Comparison.test, hcast, isCastAs_leaf.1 h v hcast]
  | join k left right ihl ihr =>
    obtain ⟨hleft, hright⟩ := isCastAs_join.1 h
    rw [uncast]
    by_cases hdecisive : (left.test row).1 = k.decisive
    · rw [test_join_of_decisive hdecisive, test_join_of_decisive (ihl hleft ▸ hdecisive)]
    · rw [test_join_of_ne hdecisive, test_join_of_ne (ihl hleft ▸ hdecisive)]
      exact ihr hright

/-- A row casts the literals as any other row with values of the same kinds does. -/
theorem isCastAs_test (h : c.IsCastAs other)
    (hkind : ∀ column ∈ c.columns, (row.value column).kind = (other.value column).kind) :
    (c.test row).2.IsCastAs other := by
  induction c with
  | leaf d =>
    rw [test, isCastAs_leaf]
    cases hcast : d.cast with
    | none =>
      rw [Comparison.test_snd_of_uncast hcast]
      intro v hv
      cases hv
      exact Value.ofLiteral_eq_of_kind_eq (hkind _ List.mem_cons_self) d.literal
    | some v =>
      rw [Comparison.test_snd_of_cast hcast]
      exact isCastAs_leaf.1 h
  | join k left right ihl ihr =>
    obtain ⟨hleft, hright⟩ := isCastAs_join.1 h
    rw [columns_join, List.forall_mem_append] at hkind
    by_cases hdecisive : (left.test row).1 = k.decisive
    · rw [test_join_of_decisive hdecisive]
      exact isCastAs_join.2 ⟨ihl hleft hkind.1, hright⟩
    · rw [test_join_of_ne hdecisive]
      exact isCastAs_join.2 ⟨ihl hleft hkind.1, ihr hright hkind.2⟩

/-- While rows of the same kinds are tried in turn, each is judged as it is alone. -/
theorem select_fst_of_isCastAs (hcast : ∀ row ∈ rows, c.IsCastAs row) (h : c.IsUniform rows) :
    (c.select rows).1 = rows.filter fun row => (c.uncast.test row).1 := by
  induction rows generalizing c with
  | nil => rfl
  | cons row rows ih =>
    have hrow := test_fst_of_isCastAs (hcast row List.mem_cons_self)
    have hnext : ∀ other ∈ rows, (c.test row).2.IsCastAs other := by
      intro other hother
      have hmem := List.mem_cons_of_mem row hother
      refine isCastAs_test (hcast other hmem) ?_
      intro column hcolumn
      exact h column hcolumn row List.mem_cons_self other hmem
    have huniform : (c.test row).2.IsUniform rows := by
      intro column hcolumn a ha b hb
      rw [columns_test] at hcolumn
      exact h column hcolumn a (List.mem_cons_of_mem row ha) b (List.mem_cons_of_mem row hb)
    have hrest := ih hnext huniform
    rw [uncast_test] at hrest
    rw [select_cons, List.filter_cons, hrow, ← hrest]

theorem select_fst_of_uncast (hcast : ∀ d ∈ c.leaves, d.cast = none) (h : c.IsUniform rows) :
    (c.select rows).1 = rows.filter fun row => (c.test row).1 := by
  have hkept := select_fst_of_isCastAs (fun row _ => isCastAs_of_uncast hcast row) h
  rwa [uncast_eq_self hcast] at hkept

theorem IsUniform.of_subset {others : List Row} (h : c.IsUniform rows) (hsub : others ⊆ rows) :
    c.IsUniform others := by
  intro column hcolumn a ha b hb
  exact h column hcolumn a (hsub ha) b (hsub hb)

/-- Over rows of the same kinds a condition keeps those that meet it alone. So it keeps the same
rows in whatever order they come, each in its place of that order. -/
theorem select_of_isUniform (hcast : ∀ d ∈ c.leaves, d.cast = none) (h : c.IsUniform rows) :
    (c.select rows).1 = rows.filter (fun row => (c.test row).1) ∧
      ∀ others : List Row, others.Perm rows →
        (c.select others).1 = others.filter (fun row => row ∈ (c.select rows).1) ∧
        (c.select others).1.Perm (c.select rows).1 := by
  have hkept := select_fst_of_uncast hcast h
  refine ⟨hkept, ?_⟩
  intro others hperm
  have hothers := select_fst_of_uncast hcast (h.of_subset hperm.subset)
  refine ⟨?_, ?_⟩
  · rw [hothers, hkept]
    refine List.filter_congr ?_
    intro row hrow
    have hmem : row ∈ rows := hperm.subset hrow
    simp [List.mem_filter, hmem]
  · rw [hothers, hkept]
    exact hperm.filter _

/-- An integer, and a column that is null or not there at all, in either order. -/
theorem select_of_isUniform_reversed :
    let c : Condition := join .or (leaf ⟨"a", .gt, "7", none⟩) (leaf ⟨"b", .eq, "x", none⟩)
    let low := Row.ofList [("a", .int 7)]
    let high := Row.ofList [("b", .null), ("a", .int 8)]
    (∀ d ∈ c.leaves, d.cast = none) ∧ c.IsUniform [low, high, low] ∧
      (c.select [low, high, low]).1 = [high] ∧
      (c.select [high, low, low]).1 = [high, low, low].filter (fun row =>
        row ∈ (c.select [low, high, low]).1) := by
  intro c low high
  have hcast : ∀ d ∈ c.leaves, d.cast = none := by decide
  have huniform : c.IsUniform [low, high, low] := by decide
  have hperm : [high, low, low].Perm [low, high, low] := List.Perm.swap low high [low]
  obtain ⟨hkept, hothers⟩ := select_of_isUniform hcast huniform
  exact ⟨hcast, huniform, hkept.trans (by decide +kernel), (hothers _ hperm).1⟩

end TableQuery.Condition
