import TableQuery.Proofs.Journal.Gate
import TableQuery.Proofs.Journal.Span

/-! The life of a span, from its beginning until it goes away: its steps are told of one by one,
its end once, and nothing after that, whatever is still asked for. -/
namespace TableQuery.Span
open TableQuery.Text

def tellings (s : Span) : List Action → List (List Event)
  | [] => []
  | a :: as => (s.act a).2 :: tellings (s.act a).1 as

/-- All that is told of a span in which some actions are asked for. Behind them it goes away, if
it has not done so before. -/
def lifetime (name : String) (fields : List (String × String)) (actions : List Action) :
    List Event :=
  (opened name).beginEvent fields :: (opened name).run (actions ++ [.drop])

def Action.ofStep (step : String × List (String × String)) : Action := .step step.1 step.2

def stepEvent (name : String) (step : String × List (String × String)) : Event :=
  ⟨.trace, name ++ "_" ++ step.1, step.2⟩

def incompleteEvent (name : String) : Event :=
  ⟨.warn, name ++ "_INCOMPLETE", [("reason", "scope dropped without completion")]⟩

/-- What is asked for from the end of a span on, and the event of that end. A span that nothing
ends is dropped. -/
inductive IsEnd (name : String) : List Action → Event → Prop
  | completed (fields : List (String × String)) (elapsed : Nat) (later : List Action) :
      IsEnd name (.complete fields elapsed :: later)
        ⟨.info, name ++ "_COMPLETE", fields ++ [("elapsed_us", decimal elapsed)]⟩
  | failed (e : QueryError) (later : List Action) :
      IsEnd name (.fail e :: later)
        ⟨.error, name ++ "_FAILED", [("code", e.code), ("message", e.message)]⟩
  | dropped (later : List Action) : IsEnd name (.drop :: later) (incompleteEvent name)
  | left : IsEnd name [] (incompleteEvent name)

theorem exists_isEnd (name : String) (actions : List Action) :
    ∃ (steps : List (String × List (String × String))) (rest : List Action) (last : Event),
      actions = steps.map .ofStep ++ rest ∧ IsEnd name rest last := by
  induction actions with
  | nil => exact ⟨[], [], _, rfl, .left⟩
  | cons a actions ih =>
    cases a with
    | step stepName details =>
      obtain ⟨steps, rest, last, rfl, hend⟩ := ih
      exact ⟨(stepName, details) :: steps, rest, last, rfl, hend⟩
    | complete fields elapsed => exact ⟨[], _, _, rfl, .completed fields elapsed actions⟩
    | fail e => exact ⟨[], _, _, rfl, .failed e actions⟩
    | drop => exact ⟨[], _, _, rfl, .dropped actions⟩

/-- With the drop behind it all, there is an action that ends the span and has the event of the
end. -/
theorem IsEnd.exists_action {name : String} {rest : List Action} {last : Event}
    (h : IsEnd name rest last) :
    ∃ a later, rest ++ [.drop] = a :: later ∧ later.length = rest.length ∧
      a.isStep = false ∧ a.event (opened name) = last := by
  cases h with
  | completed fields elapsed later => exact ⟨_, _, rfl, List.length_append, rfl, rfl⟩
  | failed e later => exact ⟨_, _, rfl, List.length_append, rfl, rfl⟩
  | dropped later => exact ⟨_, _, rfl, List.length_append, rfl, rfl⟩
  | left => exact ⟨.drop, [], rfl, rfl, rfl, rfl⟩

theorem tellings_of_ended {s : Span} (h : s.isOpen = false) (actions : List Action) :
    s.tellings actions = List.replicate actions.length [] := by
  induction actions with
  | nil => rfl
  | cons a actions ih =>
    rw [tellings, act_of_ended h, ih, List.length_cons, List.replicate_succ]

/-- An action that is no step is the last that has an event. -/
theorem tellings_end {s : Span} (h : s.isOpen = true) {a : Action} (ha : a.isStep = false)
    (actions : List Action) :
    s.tellings (a :: actions) = [a.event s] :: List.replicate actions.length [] := by
  rw [tellings, act_end h ha, tellings_of_ended rfl]

theorem tellings_steps (name : String) (steps : List (String × List (String × String)))
    (actions : List Action) :
    (opened name).tellings (steps.map .ofStep ++ actions) =
      steps.map (fun step => [stepEvent name step]) ++ (opened name).tellings actions := by
  induction steps with
  | nil => rfl
  | cons step steps ih =>
    have hopen : (opened name).isOpen = true := rfl
    rw [List.map_cons, List.cons_append, tellings, act_step hopen rfl, ih]
    rfl

/-- A span begins, then come its steps up to the first action that is none, then its one end, and
after that no action has an event. A gate writes those of the events that are grave enough for it,
and the full one all of them. -/
theorem exists_isEnd_lifetime (name : String) (fields : List (String × String))
    (actions : List Action) :
    ∃ (steps : List (String × List (String × String))) (rest : List Action) (last : Event),
      actions = steps.map .ofStep ++ rest ∧ IsEnd name rest last ∧
      lifetime name fields actions =
        ⟨.info, name ++ "_BEGIN", fields⟩ :: (steps.map (stepEvent name) ++ [last]) ∧
      (opened name).tellings (actions ++ [.drop]) =
        steps.map (fun step => [stepEvent name step]) ++ [last] :: .replicate rest.length [] ∧
      ∀ stream,
        Gate.full.written stream (lifetime name fields actions) =
          ((lifetime name fields actions).filter (·.severity.stream = stream)).map Event.line ∧
        ∀ g : Gate, g.written stream (lifetime name fields actions) =
          (((lifetime name fields actions).filter fun e =>
            g.enabled && g.least.level ≤ e.severity.level).filter
              (·.severity.stream = stream)).map Event.line := by
  obtain ⟨steps, rest, last, rfl, hend⟩ := exists_isEnd name actions
  obtain ⟨a, later, hrest, hlength, ha, hlast⟩ := hend.exists_action
  have hopen : (opened name).isOpen = true := rfl
  have hsteps : ∀ b ∈ steps.map Action.ofStep, b.isStep = true := by
    intro b hb
    obtain ⟨step, -, rfl⟩ := List.mem_map.1 hb
    rfl
  refine ⟨steps, rest, last, rfl, hend, ?_, ?_, fun stream => ⟨?_, ?_⟩⟩
  · rw [lifetime, List.append_assoc, run_steps hopen hsteps, hrest, run_end hopen ha, hlast,
      List.map_map]
    rfl
  · rw [List.append_assoc, tellings_steps, hrest, tellings_end hopen ha, hlast, hlength]
  · exact Gate.written_full stream _
  · exact fun g => Gate.written_eq g stream _

end TableQuery.Span
