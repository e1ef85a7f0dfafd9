import TableQuery.Proofs.Binary64.Truncation
import TableQuery.Value.Order

/-! The order of sorting on values is a total preorder: a value has a place, and places are
compared lexicographically. -/
namespace TableQuery

namespace Value

/-- What sorting sees of a value. Numbers are in units of 2^-1074, and what a kind of value
has no use for is the same in all of its values. -/
structure Place where
  rank : Nat
  nan : Bool
  units : Int
  text : String
  seconds : Int
  nanos : Nat

def Place.compare : Place → Place → Ordering :=
  compareLex (compareOn rank) <| compareLex (compareOn nan) <| compareLex (compareOn units) <|
    compareLex (compareOn text) <| compareLex (compareOn seconds) (compareOn nanos)

instance : Std.TransCmp Place.compare := by
  unfold Place.compare
  infer_instance

def place : Value → Place
  | null => ⟨0, false, 0, "", 0, 0⟩
  | bool b => ⟨1, b, 0, "", 0, 0⟩
  | int i => ⟨2, false, i.toInt * Binary64.one, "", 0, 0⟩
  | float x => ⟨2, x.isNaN, if x.isNaN then 0 else x.units, "", 0, 0⟩
  | text s => ⟨3, false, 0, s, 0, 0⟩
  | time t => ⟨4, false, 0, "", t.seconds, t.nanos⟩

theorem Place.compare_of_rank_ne {p q : Place} (h : p.rank ≠ q.rank) :
    p.compare q = Ord.compare p.rank q.rank := by
  have hne : Ord.compare p.rank q.rank ≠ .eq := fun he => h (Std.LawfulEqOrd.eq_of_compare he)
  simp only [Place.compare, compareLex, compareOn]
  cases hc : Ord.compare p.rank q.rank with
  | lt => rfl
  | eq => exact absurd hc hne
  | gt => rfl

/-- Places that differ in their units only. -/
theorem Place.compare_units (rank : Nat) (nan : Bool) (u v : Int) (text : String) (seconds : Int)
    (nanos : Nat) :
    Place.compare ⟨rank, nan, u, text, seconds, nanos⟩ ⟨rank, nan, v, text, seconds, nanos⟩ =
      Ord.compare u v := by
  simp only [Place.compare, compareLex, compareOn, Std.ReflCmp.compare_self]
  cases Ord.compare u v <;> rfl

theorem rank_place (v : Value) : v.place.rank = v.rank := by cases v <;> rfl

theorem compare_mul_one (i j : Int) :
    compare (i * Binary64.one) (j * Binary64.one) = compare i j := by
  have hpos : (0 : Int) < Binary64.one := Int.natCast_pos.2 Binary64.one_pos
  have hself : ∀ n : Int, compare n n = .eq := fun _ => Std.ReflCmp.compare_self
  rcases Int.lt_trichotomy i j with h | rfl | h
  · rw [Int.compare_eq_lt.2 h, Int.compare_eq_lt.2 (Int.mul_lt_mul_of_pos_right h hpos)]
  · rw [hself, hself]
  · rw [Int.compare_eq_gt.2 h, Int.compare_eq_gt.2 (Int.mul_lt_mul_of_pos_right h hpos)]

theorem totalCompare_eq (x y : Binary64) :
    x.totalCompare y = (float x).place.compare (float y).place := by
  rw [Binary64.totalCompare, place, place]
  cases hx : x.isNaN with
  | false =>
    cases hy : y.isNaN with
    | false => exact (Place.compare_units ..).symm
    | true => rfl
  | true =>
    cases hy : y.isNaN with
    | false => rfl
    | true => exact Std.ReflCmp.compare_self.symm

theorem compareInteger_eq (i : Int64) (x : Binary64) :
    Binary64.compareInteger i x = (int i).place.compare (float x).place := by
  rw [Binary64.compareInteger_eq_compare_units, place, place]
  cases h : x.isNaN with
  | false => exact (Place.compare_units ..).symm
  | true => rfl

/-- Sorting compares the places of two values. -/
theorem sortCompare_eq (a b : Value) : a.sortCompare b = a.place.compare b.place := by
  fun_cases sortCompare a b with
  | case1 a b => simp [place, Place.compare, compareLex, compareOn]
  | case2 i j =>
    rw [place, place, Place.compare_units, compare_mul_one]
  | case3 x y => exact totalCompare_eq x y
  | case4 i x => exact compareInteger_eq i x
  | case5 x i =>
    rw [compareInteger_eq, ← Std.OrientedCmp.eq_swap]
  | case6 s t => simp [place, Place.compare, compareLex, compareOn]
  | case7 t u => simp [Timestamp.compare, place, Place.compare, compareLex, compareOn]
  | case8 a b =>
    by_cases h : a.rank = b.rank
    · have hnull : a = null ∧ b = null := by
        cases a <;> cases b <;> simp_all [rank]
      obtain ⟨rfl, rfl⟩ := hnull
      rfl
    · rw [Place.compare_of_rank_ne (by simpa only [rank_place] using h)]
      simp only [rank_place]

instance : Std.TransCmp sortCompare := by
  have h : sortCompare = fun a b => a.place.compare b.place := by
    funext a b
    exact sortCompare_eq a b
  rw [h]
  exact {
    eq_swap := Std.OrientedCmp.eq_swap
    isLE_trans := Std.TransCmp.isLE_trans }

end Value
end TableQuery
