import TableQuery.Binary64.Layout
import TableQuery.Binary64.Numeral
import TableQuery.Timestamp.Layout
import TableQuery.Text.Blank

/-! The value of one cell, its written form and its reading as a number. -/
namespace TableQuery
open TableQuery.Text

inductive Value where
  | null
  | bool (b : Bool)
  | int (i : Int64)
  | float (x : Binary64)
  | text (s : String)
  | time (t : Timestamp)
deriving DecidableEq

def Timestamp.inSeconds (t : Timestamp) : Binary64 :=
  (Binary64.ofInteger t.seconds).add (Binary64.ofQuotient false t.nanos 1000000000)

namespace Value

def isNull : Value → Bool
  | null => true
  | _ => false

def display : Value → String
  | null => "null"
  | bool b => if b then "true" else "false"
  | int i => String.ofList (integerDigits i.toInt)
  | float x => String.ofList x.plainText
  | text s => s
  | time t => String.ofList t.plainText

def toNumber? : Value → Option Binary64
  | int i => some (Binary64.ofInteger i.toInt)
  | float x => some x
  | text s => Binary64.read? (trim s.toList)
  | time t => some t.inSeconds
  | null => none
  | bool _ => none

def readInt? (s : List Char) : Option Int64 :=
  (readInteger? s).bind fun i =>
    if -0x8000000000000000 ≤ i ∧ i < 0x8000000000000000 then some (Int64.ofInt i) else none

end Value
end TableQuery
