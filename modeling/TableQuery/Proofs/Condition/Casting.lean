import Mathlib.Order.Basic
import TableQuery.Proofs.Condition.Evaluation

/-! Rows tried in turn against a condition. A literal is cast at the first row that reaches its
comparison and never again, and nothing else about the condition ever changes. -/
namespace TableQuery

theorem Comparison.test_snd_of_cast {d : Comparison} {v : Value} (h : d.cast = some v)
    (row : Row) : (d.test row).2 = d := by
  rw [test, h, Option.getD_some, ← h]

theorem Comparison.test_snd_of_uncast {d : Comparison} (h : d.cast = none) (row : Row) :
    (d.test row).2 = { d with cast := some (Value.ofLiteral (row.value d.column) d.literal) } := by
  rw [test, h, Option.getD_none]

namespace Condition

theorem select_cons (c : Condition) (row : Row) (rows : List Row) :
    c.select (row :: rows) =
      let (kept, last) := (c.test row).2.select rows
      (if (c.test row).1 then row :: kept else kept, last) := rfl

def after (c : Condition) (rows : List Row) : Condition := (c.select rows).2

theorem after_cons (c : Condition) (row : Row) (rows : List Row) :
    c.after (row :: rows) = (c.test row).2.after rows := rfl

theorem after_append (c : Condition) (rows others : List Row) :
    c.after (rows ++ others) = (c.after rows).after others := by
  induction rows generalizing c with
  | nil => rfl
  | cons row rows ih => rw [List.cons_append, after_cons, after_cons, ih]

theorem after_take_succ (c : Condition) {rows : List Row} {n : Nat} (h : n < rows.length) :
    c.after (rows.take (n + 1)) = ((c.after (rows.take n)).test rows[n]).2 := by
  rw [← List.take_append_getElem h, after_append]
  rfl

theorem after_take_of_length_le (c : Condition) {rows : List Row} {n : Nat}
    (h : rows.length ≤ n) : c.after (rows.take (n + 1)) = c.after (rows.take n) := by
  rw [List.take_of_length_le h, List.take_of_length_le (Nat.le_succ_of_le h)]

theorem exists_after_take (c : Condition) (rows : List Row) {n m : Nat} (h : n ≤ m) :
    ∃ others, c.after (rows.take m) = (c.after (rows.take n)).after others := by
  refine ⟨(rows.take m).drop n, ?_⟩
  have hsplit : rows.take n ++ (rows.take m).drop n = rows.take m := by
    have htake := List.take_append_drop n (rows.take m)
    rwa [List.take_take, Nat.min_eq_left h] at htake
  rw [← after_append, hsplit]

/-- What a test keeps, all rows keep. -/
theorem after_induction {P : Condition → Prop} (hstep : ∀ c row, P c → P (c.test row).2)
    {c : Condition} (hc : P c) (rows : List Row) : P (c.after rows) := by
  induction rows generalizing c with
  | nil => exact hc
  | cons row rows ih => exact ih (hstep c row hc)

theorem uncast_after (c : Condition) (rows : List Row) : (c.after rows).uncast = c.uncast :=
  after_induction (P := fun d => d.uncast = c.uncast)
    (fun d row hd => (uncast_test d row).trans hd) rfl rows

/-- The row at a place reaches the comparison at the end of a path, when its turn comes. -/
def ReachedAt (c : Condition) (rows : List Row) (path : List Side) (n : Nat) : Prop :=
  ∃ h : n < rows.length, path ∈ (c.after (rows.take n)).reached rows[n]

section
variable {c : Condition} {rows : List Row} {path : List Side} {d : Comparison}

theorem part?_after_of_not_reached (h : c.part? path = some (leaf d)) {n : Nat}
    (hn : ∀ k < n, ¬ ReachedAt c rows path k) :
    (c.after (rows.take n)).part? path = some (leaf d) := by
  induction n with
  | zero => exact h
  | succ n ih =>
    have hbefore := ih fun k hk => hn k (Nat.lt_succ_of_lt hk)
    by_cases hlength : n < rows.length
    · have hnot : path ∉ (c.after (rows.take n)).reached rows[n] :=
        fun hmem => hn n n.lt_succ_self ⟨hlength, hmem⟩
      rw [after_take_succ c hlength, part?_test hbefore, if_neg hnot]
    · rw [after_take_of_length_le c (Nat.le_of_not_lt hlength)]
      exact hbefore

theorem part?_after_of_cast {v : Value} (hcast : d.cast = some v)
    (h : c.part? path = some (leaf d)) (rows : List Row) :
    (c.after rows).part? path = some (leaf d) := by
  refine after_induction (P := fun c => c.part? path = some (leaf d)) ?_ h rows
  intro c row hc
  rw [part?_test hc, Comparison.test_snd_of_cast hcast, ite_self]

theorem part?_after_of_reached (h : c.part? path = some (leaf d)) (hcast : d.cast = none) {k : Nat}
    (hk : k < rows.length) (hmem : path ∈ (c.after (rows.take k)).reached rows[k])
    (hfirst : ∀ j < k, ¬ ReachedAt c rows path j) {n : Nat} (hn : k < n) :
    (c.after (rows.take n)).part? path = some (leaf { d with
      cast := some (Value.ofLiteral (rows[k].value d.column) d.literal) }) := by
  have hbefore := part?_after_of_not_reached h hfirst
  obtain ⟨others, hothers⟩ := exists_after_take c rows (Nat.succ_le_of_lt hn)
  rw [hothers]
  refine part?_after_of_cast rfl ?_ others
  rw [after_take_succ c hk, part?_test hbefore, if_pos hmem, Comparison.test_snd_of_uncast hcast]

/-- A comparison stays at the end of its path. -/
theorem exists_part?_after (h : c.part? path = some (leaf d)) (rows : List Row) :
    ∃ cast, (c.after rows).part? path = some (leaf { d with cast := cast }) := by
  refine after_induction (P := fun c => ∃ cast, c.part? path = some (leaf { d with cast := cast }))
    ?_ ⟨d.cast, h⟩ rows
  intro c row hc
  obtain ⟨cast, hcast⟩ := hc
  rw [part?_test hcast]
  by_cases hmem : path ∈ c.reached row
  · exact ⟨_, by rw [if_pos hmem]; rfl⟩
  · exact ⟨cast, by rw [if_neg hmem]⟩

theorem reachedAt_iff (h : c.part? path = some (leaf d)) {n : Nat} (hn : n < rows.length) :
    ReachedAt c rows path n ↔ (c.after (rows.take n)).IsOpen rows[n] path := by
  obtain ⟨cast, hpart⟩ := exists_part?_after h (rows.take n)
  rw [← mem_reached_iff hpart]
  exact ⟨fun hreached => hreached.2, fun hmem => ⟨hn, hmem⟩⟩

theorem mem_leaves_of_part? (h : c.part? path = some (leaf d)) : d ∈ c.leaves := by
  induction c generalizing path with
  | leaf c =>
    cases path with
    | nil =>
      cases h
      exact List.mem_cons_self
    | cons side path => cases h
  | join k left right ihl ihr =>
    cases path with
    | nil => cases h
    | cons side path =>
      cases side with
      | left => exact List.mem_append_left _ (ihl h)
      | right => exact List.mem_append_right _ (ihr h)

end

/-- What becomes of a condition and its verdicts while rows are tried in turn. -/
structure CastsAtFirst (c : Condition) (rows : List Row) : Prop where
  shape : ∀ n, (c.after (rows.take n)).uncast = c
  display : ∀ n, (c.after (rows.take n)).display = c.display
  reached : ∀ path d, c.part? path = some (leaf d) → ∀ n (h : n < rows.length),
    ReachedAt c rows path n ↔ (c.after (rows.take n)).IsOpen rows[n] path
  pending : ∀ path d, c.part? path = some (leaf d) → ∀ n,
    (∀ k < n, ¬ ReachedAt c rows path k) →
      (c.after (rows.take n)).part? path = some (leaf { d with cast := none })
  cast : ∀ path d, c.part? path = some (leaf d) → ∀ k (h : k < rows.length),
    ReachedAt c rows path k → (∀ j < k, ¬ ReachedAt c rows path j) → ∀ n, k < n →
      (c.after (rows.take n)).part? path = some (leaf { d with
        cast := some (Value.ofLiteral (rows[k].value d.column) d.literal) })
  sticky : ∀ path d v n m, (c.after (rows.take n)).part? path = some (leaf d) →
    d.cast = some v → n ≤ m → (c.after (rows.take m)).part? path = some (leaf d)
  verdict : ∀ n (h : n < rows.length) guess,
    ((c.after (rows.take n)).test rows[n]).1 = (c.after (rows.take (n + 1))).plain guess rows[n]

/-- Rows tried in turn cast each literal at the first of them that reaches its comparison. -/
theorem castsAtFirst_of_uncast {c : Condition} (hc : ∀ d ∈ c.leaves, d.cast = none)
    (rows : List Row) : CastsAtFirst c rows where
  shape n := (uncast_after c _).trans (uncast_eq_self hc)
  display n := by rw [← display_uncast, uncast_after, display_uncast]
  reached path d h n hn := reachedAt_iff h hn
  pending path d h n hnot := by
    rw [part?_after_of_not_reached h hnot, ← hc d (mem_leaves_of_part? h)]
  cast path d h k hk hreached hfirst n hn :=
    part?_after_of_reached h (hc d (mem_leaves_of_part? h)) hk hreached.2 hfirst hn
  sticky path d v n m h hcast hle := by
    obtain ⟨others, hothers⟩ := exists_after_take c rows hle
    rw [hothers]
    exact part?_after_of_cast hcast h others
  verdict n hn guess := by
    rw [after_take_succ c hn]
    exact test_fst_eq_plain _ guess _

/-- The second row is the first to reach the right side, with a text, so the integer of the
third does not count as a seven. -/
theorem castsAtFirst_text_before_integer :
    let c : Condition := join .or (leaf ⟨"a", .eq, "1", none⟩) (leaf ⟨"b", .eq, "7", none⟩)
    let rows := [Row.ofList [("a", .int 1), ("b", .int 7)], Row.ofList [("b", .text "x")],
      Row.ofList [("a", .int 2), ("b", .int 7)]]
    (∀ d ∈ c.leaves, d.cast = none) ∧
      (c.after (rows.take 3)).part? [.right] = some (leaf ⟨"b", .eq, "7", some (.text "7")⟩) ∧
      (c.after rows).display = "(a = 1 OR b = 7)" := by
  intro c rows
  have hc : ∀ d ∈ c.leaves, d.cast = none := by decide
  have hrun := castsAtFirst_of_uncast hc rows
  have hreached : ReachedAt c rows [.right] 1 := ⟨by decide, by decide⟩
  have hfirst : ∀ j < 1, ¬ ReachedAt c rows [.right] j := by
    intro j hj hex
    obtain rfl := Nat.lt_one_iff.1 hj
    have hnot : [.right] ∉ (c.after (rows.take 0)).reached rows[0] := by decide
    exact hnot hex.2
  refine ⟨hc, ?_, hrun.display 3⟩
  exact hrun.cast [.right] ⟨"b", .eq, "7", none⟩ rfl 1 (by decide) hreached hfirst 3 (by decide)

end Condition
end TableQuery
