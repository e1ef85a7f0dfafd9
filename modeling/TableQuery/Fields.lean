/-! Lists of named fields with at most one field of a name, in the order of arrival. -/
namespace TableQuery.Fields
variable {α : Type}

def names (fields : List (String × α)) : List String := fields.map Prod.fst

def find? (name : String) : List (String × α) → Option α
  | [] => none
  | (n, a) :: rest => if n = name then some a else find? name rest

def put (name : String) (a : α) : List (String × α) → List (String × α)
  | [] => [(name, a)]
  | (n, b) :: rest => if n = name then (n, a) :: rest else (n, b) :: put name a rest

def ofList (fields : List (String × α)) : List (String × α) :=
  fields.foldl (fun acc field => put field.1 field.2 acc) []

theorem names_put (name : String) (a : α) (fields : List (String × α)) :
    names (put name a fields) =
      if name ∈ names fields then names fields else names fields ++ [name] := by
  induction fields with
  | nil => simp [put, names]
  | cons field rest ih =>
    simp only [names] at ih
    by_cases h : field.1 = name
    · simp [put, names, h]
    · have h' : name ≠ field.1 := Ne.symm h
      by_cases hm : name ∈ rest.map Prod.fst <;> simp [put, names, h, h', ih, hm]

theorem nodup_put {fields : List (String × α)} (h : (names fields).Nodup) (name : String) (a : α) :
    (names (put name a fields)).Nodup := by
  rw [names_put]
  split
  · exact h
  · next hm =>
    refine List.nodup_append.2 ⟨h, by simp, fun x hx y hy => ?_⟩
    simp only [List.mem_singleton] at hy
    intro e
    exact hm (hy ▸ e ▸ hx)

theorem nodup_filter {fields : List (String × α)} (h : (names fields).Nodup)
    (keep : String × α → Bool) : (names (fields.filter keep)).Nodup :=
  h.sublist (List.filter_sublist.map Prod.fst)

end TableQuery.Fields
