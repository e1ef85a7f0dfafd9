import TableQuery.Condition.Basic

/-! One row against a condition: which comparisons are made, what they leave behind, and what
the row's verdict depends on. Not all comparisons are made, as a left side may decide alone. -/
namespace TableQuery

inductive Side where
  | left
  | right
deriving DecidableEq

namespace Connective

theorem apply_decisive (k : Connective) (b : Bool) : k.apply k.decisive b = k.decisive := by
  cases k <;> rfl

theorem apply_of_ne {k : Connective} {a : Bool} (h : a ≠ k.decisive) (b : Bool) :
    k.apply a b = b := by
  cases k <;> cases a <;> first | rfl | exact absurd rfl h

end Connective

namespace Condition

def part? : Condition → List Side → Option Condition
  | c, [] => some c
  | leaf _, _ :: _ => none
  | join _ left _, .left :: path => left.part? path
  | join _ _ right, .right :: path => right.part? path

def trace : Condition → Row → (Bool × Condition) × List (List Side)
  | leaf c, row => (((c.test row).1, leaf (c.test row).2), [[]])
  | join k left right, row =>
    let ((found, left), made) := left.trace row
    if found = k.decisive then ((found, join k left right), made.map (.left :: ·))
    else
      let ((found, right), also) := right.trace row
      ((found, join k left right), made.map (.left :: ·) ++ also.map (.right :: ·))

def reached (c : Condition) (row : Row) : List (List Side) := (c.trace row).2

/-- The path leads to the right side of connectives only whose left side leaves the row
undecided: it is true for an AND, and false for an OR. -/
def IsOpen (c : Condition) (row : Row) (path : List Side) : Prop :=
  ∀ above below k left right, path = above ++ .right :: below →
    c.part? above = some (join k left right) → (left.test row).1 ≠ k.decisive

/-- The value of the condition with every comparison made, whose literal is cast. The others
are guessed. -/
def plain : Condition → (List Side → Bool) → Row → Bool
  | leaf c, guess, row =>
    match c.cast with
    | some v => c.relation.holds (row.value c.column) v
    | none => guess []
  | join k left right, guess, row =>
    k.apply (left.plain (fun path => guess (.left :: path)) row)
      (right.plain (fun path => guess (.right :: path)) row)

def uncast : Condition → Condition
  | leaf c => leaf { c with cast := none }
  | join k left right => join k left.uncast right.uncast

def columns (c : Condition) : List String := c.leaves.map (·.column)

theorem test_join_of_decisive {k : Connective} {left right : Condition} {row : Row}
    (h : (left.test row).1 = k.decisive) :
    (join k left right).test row = (k.decisive, join k (left.test row).2 right) := by
  simp [test, h]

theorem test_join_of_ne {k : Connective} {left right : Condition} {row : Row}
    (h : (left.test row).1 ≠ k.decisive) :
    (join k left right).test row =
      ((right.test row).1, join k (left.test row).2 (right.test row).2) := by
  simp [test, h]

/-- A trace is a test. -/
theorem trace_fst (c : Condition) (row : Row) : (c.trace row).1 = c.test row := by
  induction c with
  | leaf c => rfl
  | join k left right ihl ihr =>
    simp only [trace, test, ihl, ihr]
    split <;> rfl

theorem reached_join_of_decisive {k : Connective} {left right : Condition} {row : Row}
    (h : (left.test row).1 = k.decisive) :
    (join k left right).reached row = (left.reached row).map (.left :: ·) := by
  simp [reached, trace, trace_fst, h]

theorem reached_join_of_ne {k : Connective} {left right : Condition} {row : Row}
    (h : (left.test row).1 ≠ k.decisive) :
    (join k left right).reached row =
      (left.reached row).map (.left :: ·) ++ (right.reached row).map (.right :: ·) := by
  simp [reached, trace, trace_fst, h]

theorem isOpen_left {k : Connective} {left right : Condition} {row : Row} {path : List Side} :
    (join k left right).IsOpen row (.left :: path) ↔ left.IsOpen row path := by
  constructor
  · intro h above below j l r hpath hpart
    exact h (.left :: above) below j l r (congrArg _ hpath) hpart
  · intro h above below j l r hpath hpart
    cases above with
    | nil => cases hpath
    | cons side above =>
      obtain ⟨rfl, hrest⟩ := List.cons_eq_cons.1 hpath
      exact h above below j l r hrest hpart

theorem isOpen_right {k : Connective} {left right : Condition} {row : Row} {path : List Side} :
    (join k left right).IsOpen row (.right :: path) ↔
      (left.test row).1 ≠ k.decisive ∧ right.IsOpen row path := by
  constructor
  · intro h
    refine ⟨h [] path k left right rfl rfl, ?_⟩
    intro above below j l r hpath hpart
    exact h (.right :: above) below j l r (congrArg _ hpath) hpart
  · intro h above below j l r hpath hpart
    obtain ⟨hleft, hright⟩ := h
    cases above with
    | nil =>
      cases hpart
      exact hleft
    | cons side above =>
      obtain ⟨rfl, hrest⟩ := List.cons_eq_cons.1 hpath
      exact hright above below j l r hrest hpart

theorem left_mem_reached {k : Connective} {left right : Condition} {row : Row}
    {path : List Side} :
    .left :: path ∈ (join k left right).reached row ↔ path ∈ left.reached row := by
  by_cases h : (left.test row).1 = k.decisive
  · simp [reached_join_of_decisive h]
  · simp [reached_join_of_ne h]

theorem right_mem_reached {k : Connective} {left right : Condition} {row : Row}
    {path : List Side} :
    .right :: path ∈ (join k left right).reached row ↔
      (left.test row).1 ≠ k.decisive ∧ path ∈ right.reached row := by
  by_cases h : (left.test row).1 = k.decisive
  · simp [reached_join_of_decisive h, h]
  · simp [reached_join_of_ne h, h]

/-- The comparisons that a row reaches are those at the end of an open path. -/
theorem mem_reached_iff {c : Condition} {row : Row} {path : List Side} {d : Comparison}
    (h : c.part? path = some (leaf d)) : path ∈ c.reached row ↔ c.IsOpen row path := by
  induction c generalizing path with
  | leaf c =>
    cases path with
    | nil => simp [reached, trace, IsOpen]
    | cons side path => cases h
  | join k left right ihl ihr =>
    cases path with
    | nil => cases h
    | cons side path =>
      cases side with
      | left => rw [left_mem_reached, isOpen_left, ihl h]
      | right => rw [right_mem_reached, isOpen_right, ihr h]

/-- A comparison is tested where it is reached, and stays as it is elsewhere. -/
theorem part?_test {c : Condition} {row : Row} {path : List Side} {d : Comparison}
    (h : c.part? path = some (leaf d)) :
    (c.test row).2.part? path =
      some (leaf (if path ∈ c.reached row then (d.test row).2 else d)) := by
  induction c generalizing path with
  | leaf c =>
    cases path with
    | nil =>
      cases h
      simp [reached, trace, test, part?]
    | cons side path => cases h
  | join k left right ihl ihr =>
    cases path with
    | nil => cases h
    | cons side path =>
      by_cases hleft : (left.test row).1 = k.decisive
      · rw [test_join_of_decisive hleft]
        cases side with
        | left => simpa only [part?, left_mem_reached] using ihl h
        | right => simpa [part?, right_mem_reached, hleft] using h
      · rw [test_join_of_ne hleft]
        cases side with
        | left => simpa only [part?, left_mem_reached] using ihl h
        | right => simpa [part?, right_mem_reached, hleft] using ihr h

/-- Only casts change. -/
theorem uncast_test (c : Condition) (row : Row) : (c.test row).2.uncast = c.uncast := by
  induction c with
  | leaf c => rfl
  | join k left right ihl ihr =>
    by_cases h : (left.test row).1 = k.decisive
    · rw [test_join_of_decisive h, uncast, uncast, ihl]
    · rw [test_join_of_ne h, uncast, uncast, ihl, ihr]

/-- The verdict on a row is the plain value of what the test leaves behind, whatever is
guessed for the comparisons that no row has reached yet. -/
theorem test_fst_eq_plain (c : Condition) (guess : List Side → Bool) (row : Row) :
    (c.test row).1 = (c.test row).2.plain guess row := by
  induction c generalizing guess with
  | leaf c => rfl
  | join k left right ihl ihr =>
    by_cases h : (left.test row).1 = k.decisive
    · rw [test_join_of_decisive h, plain, ← ihl, h, Connective.apply_decisive]
    · rw [test_join_of_ne h, plain, ← ihl, ← ihr, Connective.apply_of_ne h]

theorem display_uncast (c : Condition) : c.uncast.display = c.display := by
  induction c with
  | leaf c => rfl
  | join k left right ihl ihr => rw [uncast, display, display, ihl, ihr]

theorem columns_join (k : Connective) (left right : Condition) :
    (join k left right).columns = left.columns ++ right.columns := List.map_append

theorem columns_uncast (c : Condition) : c.uncast.columns = c.columns := by
  induction c with
  | leaf c => rfl
  | join k left right ihl ihr => rw [uncast, columns_join, columns_join, ihl, ihr]

theorem columns_test (c : Condition) (row : Row) : (c.test row).2.columns = c.columns := by
  rw [← columns_uncast, uncast_test, columns_uncast]

theorem uncast_eq_self {c : Condition} (h : ∀ d ∈ c.leaves, d.cast = none) : c.uncast = c := by
  induction c with
  | leaf c =>
    have hc := h c List.mem_cons_self
    rw [uncast, ← hc]
  | join k left right ihl ihr =>
    rw [leaves, List.forall_mem_append] at h
    rw [uncast, ihl h.1, ihr h.2]

end Condition
end TableQuery
