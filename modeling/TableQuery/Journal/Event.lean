import TableQuery.Journal.Severity
import TableQuery.Json.Quoted

/-! Events and their written lines, and the gate that lets some of them through. -/
namespace TableQuery

structure Event where
  severity : Severity
  name : String
  fields : List (String × String)
deriving DecidableEq

namespace Event
open TableQuery.Json

def memberText (key value : String) : List Char :=
  ',' :: quote key.toList ++ ':' :: quote value.toList

def sortedFields (e : Event) : List (String × String) :=
  e.fields.mergeSort fun a b => (compare a.1 b.1).isLE

def line (e : Event) : List Char :=
  '{' :: quote "event".toList ++ ':' :: quote e.name.toList ++ memberText "severity" e.severity.name ++
    (e.sortedFields.flatMap fun field => memberText field.1 field.2) ++ ['}', '\n']

end Event

structure Gate where
  enabled : Bool
  least : Severity
deriving DecidableEq

namespace Gate

def standard : Gate := ⟨true, .warn⟩

def closed : Gate := ⟨false, .error⟩

def admits (g : Gate) (s : Severity) : Bool := g.enabled && (g.least.compare s).isLE

def written (g : Gate) (stream : Stream) (events : List Event) : List (List Char) :=
  (events.filter fun e => g.admits e.severity && e.severity.stream = stream).map Event.line

end Gate
end TableQuery
