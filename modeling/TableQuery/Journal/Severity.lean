/-! How grave an event is, and where events of that severity are written. -/
namespace TableQuery

inductive Severity where
  | trace
  | info
  | warn
  | error
deriving DecidableEq

namespace Severity

def all : List Severity := [trace, info, warn, error]

def name : Severity → String
  | trace => "TRACE"
  | info => "INFO"
  | warn => "WARN"
  | error => "ERROR"

def ofName? (name : String) : Option Severity := all.find? (·.name == name)

def level : Severity → Nat
  | trace => 0
  | info => 1
  | warn => 2
  | error => 3

def compare (a b : Severity) : Ordering := Ord.compare a.level b.level

end Severity

inductive Stream where
  | output
  | errors
deriving DecidableEq

def Severity.stream : Severity → Stream
  | trace => .output
  | info => .output
  | warn => .errors
  | error => .errors

end TableQuery
