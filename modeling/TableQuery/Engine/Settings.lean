import TableQuery.Journal.Event
import TableQuery.Json.Basic
import TableQuery.QueryError

/-! The settings of an engine, and their JSON form: objects of named parts, or arrays of them
in order. Parts that are left out are as in the standard settings. -/
namespace TableQuery

structure Settings where
  logging : Gate
deriving DecidableEq

namespace Settings
open TableQuery.Json

def standard : Settings := ⟨Gate.standard⟩

def silent : Settings := ⟨{ Gate.standard with enabled := false }⟩

def withLeast (s : Severity) : Settings := ⟨⟨true, s⟩⟩

def keyOf? (parts : List StringPart) : Option String := (decode? parts).map String.ofList

def member? (name : String) (members : List (List StringPart × Tree)) : Option (Option Tree) :=
  if members.all fun m => (keyOf? m.1).isSome then
    match members.filter fun m => keyOf? m.1 == some name with
    | [] => some none
    | [m] => some (some m.2)
    -- a name that stands twice is a fault
    | _ => none
  else none

def parts? (names : List String) : Tree → Option (List (Option Tree))
  | .object members => names.mapM fun name => member? name members
  | .array items =>
    if items.length ≤ names.length then
      some (items.map some ++ List.replicate (names.length - items.length) none)
    else none
  | _ => none

def orStandard {α : Type} (standard : α) (read? : Tree → Option α) : Option Tree → Option α
  | none => some standard
  | some tree => read? tree

def readBool? : Tree → Option Bool
  | .bool b => some b
  | _ => none

def readSeverity? : Tree → Option Severity
  | .string parts => (keyOf? parts).bind Severity.ofName?
  | .object [(key, .null)] => (keyOf? key).bind Severity.ofName?
  | _ => none

def readGate? (tree : Tree) : Option Gate := do
  match ← parts? ["enabled", "min_severity"] tree with
  | [enabled, least] =>
    return ⟨← orStandard Gate.standard.enabled readBool? enabled,
      ← orStandard Gate.standard.least readSeverity? least⟩
  | _ => none

def readTree? (tree : Tree) : Option Settings := do
  match ← parts? ["logging"] tree with
  | [logging] => return ⟨← orStandard Gate.standard readGate? logging⟩
  | _ => none

def ofJsonText (refusal : String → Refusal) (text : String) : Except QueryError Settings :=
  let reading := Reading.ofText text.toList
  match if reading.complete then readTree? reading.tree else none with
  | some s => .ok s
  | none => .error (.settings (refusal text).text)

def toJson (s : Settings) : Json :=
  .object [("logging", .object [("enabled", .bool s.logging.enabled),
    ("min_severity", .string s.logging.least.name)])]

end Settings
end TableQuery
