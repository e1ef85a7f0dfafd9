import TableQuery.Proofs.Condition.Groups

/-! Texts whose parentheses do not pair up: the first fault from left to right, and where
the search for a group comes upon it. -/
namespace TableQuery
open TableQuery.Text

namespace Condition

/-- The first fault of the parentheses of a text from left to right, when a parenthesis
stands open before it and when none does. -/
def fault? : Bool → List Char → Option ParenthesisFault
  | true, [] => some .unclosed
  | false, [] => none
  | isOpen, c :: s =>
    if c = '(' then if isOpen then some .nested else fault? true s
    else if c = ')' then if isOpen then fault? false s else some .unmatched
    else fault? isOpen s

def Faulty (s : List Char) : Prop := fault? false s ≠ none

instance (s : List Char) : Decidable (Faulty s) :=
  inferInstanceAs (Decidable (fault? false s ≠ none))

theorem fault?_cons_of_ne {c : Char} (hopen : c ≠ '(') (hclose : c ≠ ')') (isOpen : Bool)
    (s : List Char) : fault? isOpen (c :: s) = fault? isOpen s := by
  rw [fault?, if_neg hopen, if_neg hclose]

theorem fault?_flat_append {s : List Char} (hs : Flat s) (isOpen : Bool) (t : List Char) :
    fault? isOpen (s ++ t) = fault? isOpen t := by
  induction s with
  | nil => rfl
  | cons c s ih =>
    have hopen : c ≠ '(' := fun h => hs.1 (h ▸ List.mem_cons_self)
    have hclose : c ≠ ')' := fun h => hs.2 (h ▸ List.mem_cons_self)
    rw [List.cons_append, fault?_cons_of_ne hopen hclose]
    exact ih (hs.of_infix (List.suffix_cons c s).isInfix)

theorem fault?_append_flat {t : List Char} (ht : Flat t) (isOpen : Bool) (s : List Char) :
    fault? isOpen (s ++ t) = fault? isOpen s := by
  induction s generalizing isOpen with
  | nil =>
    have h := fault?_flat_append ht isOpen []
    rwa [List.append_nil] at h
  | cons c s ih =>
    rw [List.cons_append, fault?, fault?]
    simp only [ih]

theorem not_faulty_of_flat {s : List Char} (hs : Flat s) : ¬ Faulty s := by
  have h := fault?_append_flat hs false []
  rw [List.nil_append] at h
  exact fun hfaulty => hfaulty h

/-- A group is passed over. -/
theorem fault?_group {before inner : List Char} (hbefore : Flat before) (hinner : Flat inner)
    (after : List Char) :
    fault? false (before ++ '(' :: (inner ++ ')' :: after)) = fault? false (before ++ after) := by
  calc
    fault? false (before ++ '(' :: (inner ++ ')' :: after))
      = fault? true (inner ++ ')' :: after) := by rw [fault?_flat_append hbefore]; rfl
    _ = fault? false after := by rw [fault?_flat_append hinner]; rfl
    _ = fault? false (before ++ after) := (fault?_flat_append hbefore false after).symm

theorem Faulty.exists_mem {s : List Char} (h : Faulty s) : ∃ c ∈ s, isBlank c = false := by
  by_contra hnone
  refine not_faulty_of_flat ⟨?_, ?_⟩ h
  · exact fun hmem => hnone ⟨'(', hmem, rfl⟩
  · exact fun hmem => hnone ⟨')', hmem, rfl⟩

/-- A text up to the first character of which `p` fails. -/
theorem eq_of_dropWhile_eq_cons {p : Char → Bool} {s rest : List Char} {c : Char}
    (h : s.dropWhile p = c :: rest) : s = s.takeWhile p ++ c :: rest ∧ p c = false := by
  have hs := List.takeWhile_append_dropWhile (p := p) (l := s)
  have hc := List.head_dropWhile_not (l := s) p (by rw [h]; nofun)
  rw [h] at hs
  simp only [h, List.head_cons] at hc
  exact ⟨hs.symm, hc⟩

/-- A text has no group, or it has a first one, or its parentheses are at fault there. -/
theorem firstGroup_cases (s : List Char) :
    Flat s ∨
      (∃ before inner after, s = before ++ '(' :: (inner ++ ')' :: after) ∧ Flat before ∧
        Flat inner) ∨
      ∃ fault, firstGroup s = .error fault := by
  have hbefore : Flat (s.takeWhile fun c => !isParenthesis c) :=
    ⟨fun h => absurd (List.mem_takeWhile_imp h) (by decide),
      fun h => absurd (List.mem_takeWhile_imp h) (by decide)⟩
  cases hd : s.dropWhile fun c => !isParenthesis c with
  | nil =>
    have hs := List.takeWhile_append_dropWhile (p := fun c => !isParenthesis c) (l := s)
    rw [hd, List.append_nil] at hs
    exact .inl (hs ▸ hbefore)
  | cons c rest =>
    refine .inr ?_
    obtain ⟨hs, hc⟩ := eq_of_dropWhile_eq_cons hd
    by_cases hclose : c = ')'
    · exact .inr ⟨.unmatched, by rw [firstGroup, hd]; exact if_pos hclose⟩
    · have hopen : c = '(' := by simpa [isParenthesis, hclose] using hc
      cases hr : rest.dropWhile (· != ')') with
      | nil => exact .inr ⟨.unclosed, by simp only [firstGroup, hd, hr, if_neg hclose]⟩
      | cons d after =>
        obtain ⟨hrest, hd'⟩ := eq_of_dropWhile_eq_cons hr
        by_cases hnested : '(' ∈ rest.takeWhile (· != ')')
        · refine .inr ⟨.nested, ?_⟩
          simp only [firstGroup, hd, hr, if_neg hclose, if_pos hnested]
        · have hinner : Flat (rest.takeWhile (· != ')')) :=
            ⟨hnested, fun h => absurd (List.mem_takeWhile_imp h) (by decide)⟩
          rw [hopen, hrest, (bne_eq_false_iff_eq).1 hd'] at hs
          exact .inl ⟨_, _, after, hs, hbefore, hinner⟩

theorem flat_of_blank {s : List Char} (h : ∀ c ∈ s, isBlank c = true) : Flat s :=
  ⟨fun hmem => absurd (h _ hmem) (by decide), fun hmem => absurd (h _ hmem) (by decide)⟩

theorem fault?_of_leading? {k : Connective} {s rest : List Char}
    (h : k.leading? s = some rest) : fault? false s = fault? false rest := by
  obtain ⟨w, b, hw, hb, hs⟩ := Connective.followed?_eq_some_iff.1 h
  have hstart := List.takeWhile_append_dropWhile (p := isBlank) (l := s)
  have hblank : Flat (s.takeWhile isBlank) :=
    flat_of_blank fun _ hmem => List.mem_takeWhile_imp hmem
  have hword : Flat (w ++ [b]) :=
    hw.flat.append (flat_of_blank (List.forall_mem_singleton.2 hb))
  calc
    fault? false s = fault? false (trimStart s) := by
      rw [← hstart, fault?_flat_append hblank, hstart]
      rfl
    _ = fault? false (w ++ [b] ++ rest) := by simp [hs]
    _ = fault? false rest := fault?_flat_append hword false rest

theorem fault?_of_trailing? {k : Connective} {s rest : List Char}
    (h : k.trailing? s = some rest) : fault? false s = fault? false rest := by
  obtain ⟨b, w, t, hb, hw, ht, rfl⟩ := Connective.trailing?_eq_some_iff.1 h
  have hword : Flat ([b] ++ (w ++ t)) :=
    (flat_of_blank (List.forall_mem_singleton.2 hb)).append (hw.flat.append (flat_of_blank ht))
  exact fault?_append_flat hword false rest

end Condition
end TableQuery
