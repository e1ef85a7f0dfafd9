import TableQuery.Proofs.Json.Reading

/-! Objects that hold strings only. Their text is one line, and it is read back member by member,
those of one key included. -/
namespace TableQuery.Json

def ofStrings (members : List (String × String)) : Json :=
  object (members.map fun m => (m.1, string m.2))

def stringMember? : List StringPart × Tree → Option (String × String)
  | (key, .string value) => do
    return (String.ofList (← decode? key), String.ofList (← decode? value))
  | _ => none

def stringMembers? (s : List Char) : Option (List (String × String)) :=
  match Reading.ofText s with
  | ⟨.object members, true⟩ => members.mapM stringMember?
  | _ => none

theorem isWhole_ofStrings (members : List (String × String)) : (ofStrings members).IsWhole := by
  refine .object ?_
  intro m hm
  obtain ⟨m, -, rfl⟩ := List.mem_map.1 hm
  exact .string m.2

theorem stringMember?_map_part (key value : String) :
    stringMember? (key.toList.map part, .string (value.toList.map part)) = some (key, value) := by
  rw [stringMember?, decode?_map_part, decode?_map_part]
  simp only [Option.bind_eq_bind, Option.bind_some, Option.pure_def, String.ofList_toList]

theorem mapM_stringMember? (members : List (String × String)) :
    (memberTrees (members.map fun m => (m.1, string m.2))).mapM stringMember? = some members := by
  induction members with
  | nil => rfl
  | cons m members ih =>
    rw [List.map_cons, memberTrees, Json.tree, List.mapM_cons, stringMember?_map_part, ih]
    rfl

theorem stringMembers?_text (members : List (String × String)) :
    stringMembers? (ofStrings members).text = some members := by
  rw [stringMembers?, Reading.ofText_text (isWhole_ofStrings members), ofStrings, Json.tree]
  exact mapM_stringMember? members

/-- Behind the first member each stands behind a comma. -/
theorem membersText_cons (m : String × Json) (members : List (String × Json)) :
    membersText (m :: members) = quote m.1.toList ++ ':' :: m.2.text ++
      members.flatMap fun m => ',' :: quote m.1.toList ++ ':' :: m.2.text := by
  induction members generalizing m with
  | nil => simp [membersText]
  | cons next members ih =>
    rw [membersText, ih next, List.flatMap_cons]
    · simp only [List.append_assoc, List.cons_append]
    · exact List.cons_ne_nil next members

theorem text_ofStrings_cons (m : String × String) (members : List (String × String)) :
    (ofStrings (m :: members)).text =
      '{' :: quote m.1.toList ++ ':' :: quote m.2.toList ++
        (members.flatMap fun m => ',' :: quote m.1.toList ++ ':' :: quote m.2.toList) ++ ['}'] := by
  rw [ofStrings, Json.text, List.map_cons, membersText_cons, List.flatMap_map]
  simp only [Json.text, List.cons_append]

theorem hexDigit_ne_newline {n : Nat} (h : n < 16) : hexDigit n ≠ '\n' := by
  decide +revert

theorem newline_not_mem_escape (c : Char) : '\n' ∉ escape c := by
  fun_cases escape c with
  | case1 => decide
  | case2 => decide
  | case3 => decide
  | case4 => decide
  | case5 => decide
  | case6 => decide
  | case7 => decide
  | case8 _ _ _ _ _ _ _ hcontrol =>
    have hfirst : hexDigit (c.toNat / 16) ≠ '\n' := hexDigit_ne_newline (by omega)
    have hlast : hexDigit (c.toNat % 16) ≠ '\n' := hexDigit_ne_newline (by omega)
    simp [hfirst.symm, hlast.symm]
  | case9 _ _ hnewline =>
    rw [List.mem_singleton]
    exact fun h => hnewline h.symm

theorem newline_not_mem_quote (s : List Char) : '\n' ∉ quote s := by
  have hescaped : '\n' ∉ s.flatMap escape := by
    intro h
    obtain ⟨c, -, hc⟩ := List.mem_flatMap.1 h
    exact newline_not_mem_escape c hc
  simp [quote, hescaped]

theorem newline_not_mem_ofStrings (members : List (String × String)) :
    '\n' ∉ (ofStrings members).text := by
  cases members with
  | nil => decide
  | cons m members =>
    rw [text_ofStrings_cons]
    simp [newline_not_mem_quote]

end TableQuery.Json
