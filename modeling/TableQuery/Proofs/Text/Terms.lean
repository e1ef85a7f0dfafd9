import TableQuery.Proofs.Text.Words

/-! Terms between commas, of which the trimmed texts count. Blanks at an end of a text are blanks at
an end of its first or last term, and so it makes no difference whether the text is trimmed. -/
namespace TableQuery.Text

theorem terms_append_comma (s t : List Char) : terms (s ++ ',' :: t) = terms s ++ terms t :=
  pieces_append rfl s t

theorem terms_of_not_mem {s : List Char} (h : ',' ∉ s) : terms s = [s] :=
  pieces_of_forall_not fun _ hc => beq_false_of_ne fun he => h (he ▸ hc)

theorem comma_not_mem_of_blank {blanks : List Char} (h : ∀ c ∈ blanks, isBlank c = true) :
    ',' ∉ blanks :=
  fun hmem => absurd (h ',' hmem) (by decide)

/-- The text is parted at its commas, until blanks surround a single term. -/
theorem map_trim_terms_padded {front back : List Char} (hfront : ∀ c ∈ front, isBlank c = true)
    (hback : ∀ c ∈ back, isBlank c = true) (s : List Char) :
    (terms (front ++ s ++ back)).map trim = (terms s).map trim := by
  by_cases hs : ',' ∈ s
  · obtain ⟨left, right, he⟩ := List.append_of_mem hs
    have hlength : s.length = left.length + (right.length + 1) := by
      rw [he]
      exact List.length_append
    have hnone : ∀ c ∈ ([] : List Char), isBlank c = true := List.forall_mem_nil _
    have hleft := map_trim_terms_padded hfront hnone left
    have hright := map_trim_terms_padded hnone hback right
    rw [List.append_nil] at hleft
    rw [List.nil_append] at hright
    have hsplit : front ++ s ++ back = (front ++ left) ++ ',' :: (right ++ back) := by simp [he]
    rw [hsplit, he, terms_append_comma, terms_append_comma, List.map_append, List.map_append,
      hleft, hright]
  · have hpadded : ',' ∉ front ++ s ++ back := by
      simp [hs, comma_not_mem_of_blank hfront, comma_not_mem_of_blank hback]
    rw [terms_of_not_mem hpadded, terms_of_not_mem hs, List.map_singleton, List.map_singleton,
      trim_append_blank hback, trim_blank_append hfront]
termination_by s.length
decreasing_by all_goals omega

theorem exists_eq_append_trim_append (s : List Char) :
    ∃ front back, s = front ++ trim s ++ back ∧ (∀ c ∈ front, isBlank c = true) ∧
      ∀ c ∈ back, isBlank c = true := by
  obtain ⟨back, hback, hblank⟩ := exists_eq_trimEnd_append (trimStart s)
  refine ⟨s.takeWhile isBlank, back, ?_, fun c hc => List.mem_takeWhile_imp hc, hblank⟩
  rw [List.append_assoc, trim, ← hback]
  exact List.takeWhile_append_dropWhile.symm

theorem isInfix_trim (s : List Char) : trim s <:+: s := by
  obtain ⟨front, back, hs, -⟩ := exists_eq_append_trim_append s
  exact ⟨front, back, hs.symm⟩

theorem map_trim_terms_trim (s : List Char) : (terms (trim s)).map trim = (terms s).map trim := by
  obtain ⟨front, back, hs, hfront, hback⟩ := exists_eq_append_trim_append s
  conv_rhs => rw [hs]
  exact (map_trim_terms_padded hfront hback (trim s)).symm

end TableQuery.Text
