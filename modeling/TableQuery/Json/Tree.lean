import TableQuery.Json.Token

/-! The shape of a JSON text, with strings and numbers as they are written and every member
of an object kept. A text with a fault is read as far as it goes. -/
namespace TableQuery.Json

inductive Tree where
  | null
  | bool (b : Bool)
  | number (n : Numeral)
  | string (parts : List StringPart)
  | array (items : List Tree)
  | object (members : List (List StringPart × Tree))

inductive Frame where
  | array (items : List Tree)
  | object (members : List (List StringPart × Tree))
  -- its next member has a key and no value yet
  | member (members : List (List StringPart × Tree)) (key : List StringPart)

def Frame.tree : Frame → Tree
  | array items => .array items.reverse
  | object members => .object members.reverse
  | member members _ => .object members.reverse

inductive Expected where
  | value
  -- a value, or the end of the array that has just begun
  | item
  -- a key, or the end of the object that has just begun
  | firstKey
  | key
  | colon
  -- a comma, or the end of what is open
  | next
deriving DecidableEq

def Expected.isValue (e : Expected) : Bool := e = value ∨ e = item

def Expected.isKey (e : Expected) : Bool := e = firstKey ∨ e = key

inductive Step where
  | goOn (expected : Expected) (frames : List Frame)
  | finished (tree : Tree)
  | fault

def Step.ofValue (tree : Tree) : List Frame → Step
  | [] => .finished tree
  | .array items :: frames => .goOn .next (.array (tree :: items) :: frames)
  | .member members key :: frames => .goOn .next (.object ((key, tree) :: members) :: frames)
  | .object _ :: _ => .fault

def Step.close (array : Bool) : List Frame → Step
  | .array items :: frames => if array then ofValue (.array items.reverse) frames else .fault
  | .object members :: frames => if array then .fault else ofValue (.object members.reverse) frames
  | _ => .fault

def Step.ofKey (key : List StringPart) : List Frame → Step
  | .object members :: frames => .goOn .colon (.member members key :: frames)
  | _ => .fault

def Step.ofComma : List Frame → Step
  | .array items :: frames => .goOn .value (.array items :: frames)
  | .object members :: frames => .goOn .key (.object members :: frames)
  | _ => .fault

def step (expected : Expected) (frames : List Frame) : Token → Step
  | .openArray => if expected.isValue then .goOn .item (.array [] :: frames) else .fault
  | .openObject => if expected.isValue then .goOn .firstKey (.object [] :: frames) else .fault
  | .closeArray => if expected = .item ∨ expected = .next then .close true frames else .fault
  | .closeObject => if expected = .firstKey ∨ expected = .next then .close false frames else .fault
  | .comma => if expected = .next then .ofComma frames else .fault
  | .colon => if expected = .colon then .goOn .value frames else .fault
  | .null => if expected.isValue then .ofValue .null frames else .fault
  | .bool b => if expected.isValue then .ofValue (.bool b) frames else .fault
  | .number n => if expected.isValue then .ofValue (.number n) frames else .fault
  | .string parts =>
    if expected.isValue then .ofValue (.string parts) frames
    else if expected.isKey then .ofKey parts frames
    else .fault
  | .fault => .fault

/-- What was read of a text: all of it, or what the outermost array or object held before
the first fault. -/
structure Reading where
  tree : Tree
  complete : Bool

def Reading.ofFrames (frames : List Frame) : Reading :=
  ⟨(frames.getLast?.map Frame.tree).getD .null, false⟩

def Reading.run (expected : Expected) (frames : List Frame) : List Token → Reading
  | [] => ofFrames frames
  | token :: tokens =>
    match step expected frames token with
    | .goOn expected frames => run expected frames tokens
    | .finished tree => ⟨tree, tokens.isEmpty⟩
    | .fault => ofFrames frames

def Reading.ofText (s : List Char) : Reading := run .value [] (Token.all s)

end TableQuery.Json
