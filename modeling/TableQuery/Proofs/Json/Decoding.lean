import TableQuery.Proofs.Json.Reading
import TableQuery.Proofs.Row.OrderedMap

/-! A document is read back from its text, if its numbers are integers of 64 bits, its objects have
distinct keys, and it is not too deep. -/
namespace TableQuery.Json
open TableQuery.Text

def Number.IsExact (i : Int) : Prop := -0x8000000000000000 ≤ i ∧ i < 0x10000000000000000

theorem Number.ofNumeral?_ofInteger {i : Int} (h : IsExact i) :
    ofNumeral? (.ofInteger i) = some (integer i) := by
  obtain ⟨hlow, hhigh⟩ := h
  have hlimit : limit = 0x10000000000000000 := rfl
  rw [ofNumeral?, Numeral.ofInteger]
  simp only [ofDigits_digitsOf]
  by_cases hnegative : i < 0
  · have hvalue : -(i.natAbs : Int) = i := by omega
    have hne : i.natAbs ≠ 0 := by omega
    have hle : i.natAbs ≤ 0x8000000000000000 := by omega
    rw [decide_eq_true hnegative, decide_eq_true hne, decide_eq_true hle, hvalue]
    rfl
  · have hvalue : (i.natAbs : Int) = i := by omega
    have hlt : i.natAbs < limit := by omega
    rw [decide_eq_false hnegative, decide_eq_true hlt, hvalue]
    rfl

inductive IsExact : Nat → Json → Prop
  | null (depth : Nat) : IsExact depth null
  | bool (depth : Nat) (b : Bool) : IsExact depth (bool b)
  | integer (depth : Nat) {i : Int} (h : Number.IsExact i) : IsExact depth (number (.integer i))
  | string (depth : Nat) (s : String) : IsExact depth (string s)
  | array {depth : Nat} {items : List Json} (h : ∀ item ∈ items, IsExact depth item) :
      IsExact (depth + 1) (array items)
  | object {depth : Nat} {members : List (String × Json)} (h : ∀ m ∈ members, IsExact depth m.2)
      (hkeys : (Fields.names members).Nodup) : IsExact (depth + 1) (object members)

theorem IsExact.isWhole {depth : Nat} {j : Json} (h : IsExact depth j) : j.IsWhole := by
  induction h with
  | null _ => exact .null
  | bool _ b => exact .bool b
  | integer _ _ => exact .integer _
  | string _ s => exact .string s
  | array _ ih => exact .array ih
  | object _ _ ih => exact .object ih

theorem tree_integer (i : Int) : (number (.integer i)).tree = .number (.ofInteger i) := by
  have hscan := scanNumeral?_integerDigits i endsNumeral_nil
  rw [List.append_nil] at hscan
  rw [tree, Number.text, hscan]
  rfl

theorem ofItems?_itemTrees {depth : Nat} {items : List Json}
    (h : ∀ item ∈ items, ofTree? depth item.tree = some item) :
    ofItems? depth (itemTrees items) = some items := by
  induction items with
  | nil => rfl
  | cons item items ih =>
    obtain ⟨hitem, hitems⟩ := List.forall_mem_cons.1 h
    rw [itemTrees, ofItems?, hitem, ih hitems]
    rfl

theorem ofMembers?_memberTrees {depth : Nat} {members : List (String × Json)}
    (h : ∀ m ∈ members, ofTree? depth m.2.tree = some m.2) :
    ofMembers? depth (memberTrees members) = some members := by
  induction members with
  | nil => rfl
  | cons m members ih =>
    obtain ⟨hm, hmembers⟩ := List.forall_mem_cons.1 h
    rw [memberTrees, ofMembers?, decode?_map_part, hm, ih hmembers]
    simp [String.ofList_toList]

theorem ofTree?_tree {depth : Nat} {j : Json} (h : IsExact depth j) :
    ofTree? depth j.tree = some j := by
  induction h with
  | null _ => rfl
  | bool _ b => rfl
  | integer _ h => rw [tree_integer, ofTree?, Number.ofNumeral?_ofInteger h, Option.map_some]
  | string _ s =>
    rw [tree, ofTree?, decode?_map_part, Option.map_some, String.ofList_toList]
  | @array depth items _ ih =>
    rw [tree, ofTree?, if_neg (Nat.succ_ne_zero depth), Nat.add_sub_cancel, ofItems?_itemTrees ih,
      Option.map_some]
  | @object depth members _ hkeys ih =>
    rw [tree, ofTree?, if_neg (Nat.succ_ne_zero depth), Nat.add_sub_cancel,
      ofMembers?_memberTrees ih, Option.map_some, ofMembers, Fields.ofList_of_nodup hkeys]

theorem read?_text {j : Json} (h : IsExact maxDepth j) : read? j.text = some j := by
  rw [read?, Reading.ofText_text h.isWhole]
  exact ofTree?_tree h

end TableQuery.Json
