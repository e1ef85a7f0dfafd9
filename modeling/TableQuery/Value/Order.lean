import TableQuery.Binary64.Truncation
import TableQuery.Value.Basic

/-! Equality and the two orders of values: the partial one of comparisons, and the total
one of sorting. Comparisons round an integer that meets a float; sorting does not. -/
namespace TableQuery.Value

def equals : Value → Value → Bool
  | null, null => true
  | bool a, bool b => a == b
  | int a, int b => a == b
  | float a, float b => a.equals b
  | int a, float b => (Binary64.ofInteger a.toInt).equals b
  | float a, int b => (Binary64.ofInteger b.toInt).equals a
  | text a, text b => a == b
  | time a, time b => a == b
  | _, _ => false

def compare? : Value → Value → Option Ordering
  | null, null => some .eq
  | bool a, bool b => some (compare a b)
  | int a, int b => some (compare a.toInt b.toInt)
  | float a, float b => a.compare? b
  | int a, float b => (Binary64.ofInteger a.toInt).compare? b
  | float a, int b => a.compare? (Binary64.ofInteger b.toInt)
  | text a, text b => some (compare a b)
  | time a, time b => some (a.compare b)
  | _, _ => none

def rank : Value → Nat
  | null => 0
  | bool _ => 1
  | int _ => 2
  | float _ => 2
  | text _ => 3
  | time _ => 4

def sortCompare : Value → Value → Ordering
  | bool a, bool b => compare a b
  | int a, int b => compare a.toInt b.toInt
  | float a, float b => a.totalCompare b
  | int a, float b => Binary64.compareInteger a b
  | float a, int b => (Binary64.compareInteger b a).swap
  | text a, text b => compare a b
  | time a, time b => a.compare b
  | a, b => compare a.rank b.rank

/-- The form that all values of a group share: both float zeros are one. Values of other
kinds stand for themselves, so a NaN is in the group of its own bits, and an integer is in
no group of a float. -/
def groupKey : Value → Value
  | float x => if x.isZero then float (Binary64.zero false) else float x
  | v => v

end TableQuery.Value
