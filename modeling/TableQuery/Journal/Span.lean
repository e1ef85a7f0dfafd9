import TableQuery.Journal.Event
import TableQuery.QueryError
import TableQuery.Text.Digits

/-! Spans of work. A span tells of its beginning, its steps and its end, and of its end once. -/
namespace TableQuery

structure Span where
  name : String
  isOpen : Bool
deriving DecidableEq

namespace Span

inductive Action where
  | step (name : String) (fields : List (String × String))
  | complete (fields : List (String × String)) (elapsed : Nat)
  | fail (e : QueryError)
  | drop

def opened (name : String) : Span := ⟨name, true⟩

def beginEvent (s : Span) (fields : List (String × String)) : Event :=
  ⟨.info, s.name ++ "_BEGIN", fields⟩

def Action.event (s : Span) : Action → Event
  | step name fields => ⟨.trace, s.name ++ "_" ++ name, fields⟩
  | complete fields elapsed =>
    ⟨.info, s.name ++ "_COMPLETE", fields ++ [("elapsed_us", Text.decimal elapsed)]⟩
  | fail e => ⟨.error, s.name ++ "_FAILED", [("code", e.code), ("message", e.message)]⟩
  | drop => ⟨.warn, s.name ++ "_INCOMPLETE", [("reason", "scope dropped without completion")]⟩

def Action.isStep : Action → Bool
  | step _ _ => true
  | _ => false

def ended (s : Span) : Span := { s with isOpen := false }

def leave (s : Span) : List Event := if s.isOpen then [Action.drop.event s] else []

/-- The span after an action, and the events of it. All but a step let the span go away. In a
span that has ended nothing happens. -/
def act (s : Span) (a : Action) : Span × List Event :=
  if s.isOpen then
    match a with
    | .step _ _ => (s, [a.event s])
    | .complete _ _ => (s.ended, a.event s :: s.ended.leave)
    | .fail _ => (s.ended, a.event s :: s.ended.leave)
    | .drop => (s.ended, s.leave)
  else (s, [])

def run (s : Span) : List Action → List Event
  | [] => []
  | a :: as => (s.act a).2 ++ run (s.act a).1 as

end Span
end TableQuery
