import TableQuery.Journal.Span

/-! The events of a span that has begun: those of its steps, then that of the action that ends
it, and none of what comes later. -/
namespace TableQuery.Span

/-- An action in an open span has one event: going away adds nothing to an end that has been told. -/
theorem act_eq (s : Span) (a : Action) :
    s.act a = if s.isOpen then ({ s with isOpen := a.isStep }, [a.event s]) else (s, []) := by
  obtain ⟨name, isOpen⟩ := s
  cases isOpen with
  | false => rfl
  | true => cases a <;> rfl

theorem act_of_ended {s : Span} (h : s.isOpen = false) (a : Action) : s.act a = (s, []) := by
  rw [act_eq, h, if_neg Bool.false_ne_true]

/-- A step leaves the span open. -/
theorem act_step {s : Span} (h : s.isOpen = true) {a : Action} (ha : a.isStep = true) :
    s.act a = (s, [a.event s]) := by
  rw [act_eq, if_pos h, ha, ← h]

theorem act_end {s : Span} (h : s.isOpen = true) {a : Action} (ha : a.isStep = false) :
    s.act a = (s.ended, [a.event s]) := by
  rw [act_eq, if_pos h, ha, ended]

theorem run_of_ended {s : Span} (h : s.isOpen = false) (actions : List Action) :
    s.run actions = [] := by
  induction actions with
  | nil => rfl
  | cons a actions ih => rw [run, act_of_ended h, ih, List.append_nil]

theorem run_step {s : Span} (h : s.isOpen = true) {a : Action} (ha : a.isStep = true)
    (actions : List Action) : s.run (a :: actions) = a.event s :: s.run actions := by
  rw [run, act_step h ha, List.singleton_append]

/-- Nothing is told of what comes after the end. -/
theorem run_end {s : Span} (h : s.isOpen = true) {a : Action} (ha : a.isStep = false)
    (actions : List Action) : s.run (a :: actions) = [a.event s] := by
  rw [run, act_end h ha, run_of_ended rfl, List.append_nil]

theorem run_steps {s : Span} (h : s.isOpen = true) {steps : List Action}
    (hsteps : ∀ a ∈ steps, a.isStep = true) (actions : List Action) :
    s.run (steps ++ actions) = steps.map (Action.event s) ++ s.run actions := by
  induction steps with
  | nil => rfl
  | cons a steps ih =>
    obtain ⟨ha, hsteps⟩ := List.forall_mem_cons.1 hsteps
    rw [List.cons_append, run_step h ha, ih hsteps, List.map_cons, List.cons_append]

end TableQuery.Span
