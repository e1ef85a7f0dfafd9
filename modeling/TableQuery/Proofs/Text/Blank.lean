import TableQuery.Text.Cut
import Mathlib.Data.List.TakeWhile

/-! Blank texts, the first word of a text, and the last one. -/
namespace TableQuery.Text

theorem trimStart_eq_nil_iff {s : List Char} : trimStart s = [] ↔ ∀ c ∈ s, isBlank c = true :=
  List.dropWhile_eq_nil_iff

theorem trimEnd_eq_nil_iff {s : List Char} : trimEnd s = [] ↔ ∀ c ∈ s, isBlank c = true := by
  rw [trimEnd, List.reverse_eq_nil_iff, List.dropWhile_eq_nil_iff]
  simp only [List.mem_reverse]

/-- Trimming leaves nothing of a blank text only. -/
theorem trim_eq_nil_iff {s : List Char} : trim s = [] ↔ ∀ c ∈ s, isBlank c = true := by
  constructor
  · intro h c hc
    rw [← List.takeWhile_append_dropWhile (p := isBlank) (l := s), List.mem_append] at hc
    cases hc with
    | inl hstart => exact List.mem_takeWhile_imp hstart
    | inr hrest => exact trimEnd_eq_nil_iff.1 h c hrest
  · intro h
    rw [trim, trimEnd_eq_nil_iff, trimStart_eq_nil_iff.2 h]
    simp

theorem trim_ne_nil_of_mem {s : List Char} {c : Char} (hc : c ∈ s) (hb : isBlank c = false) :
    trim s ≠ [] := by
  intro h
  rw [trim_eq_nil_iff.1 h c hc] at hb
  cases hb

theorem trimStart_append {s t : List Char} (h : trim s ≠ []) :
    trimStart (s ++ t) = trimStart s ++ t := by
  rw [trimStart, List.dropWhile_append, if_neg, ← trimStart]
  rw [List.isEmpty_iff, ← trimStart, trimStart_eq_nil_iff, ← trim_eq_nil_iff]
  exact h

theorem trimStart_eq_self {s : List Char} (h : ∀ c, s.head? = some c → isBlank c = false) :
    trimStart s = s := by
  cases s with
  | nil => rfl
  | cons c s => exact List.dropWhile_cons_of_neg (by simp [h c rfl])

theorem trimEnd_eq_self {s : List Char} (h : ∀ c, s.getLast? = some c → isBlank c = false) :
    trimEnd s = s := by
  have hend : trimEnd s = (trimStart s.reverse).reverse := rfl
  rw [hend, trimStart_eq_self (by rwa [List.head?_reverse]), List.reverse_reverse]

/-- A text that neither begins nor ends with a blank is trimmed. -/
theorem trim_eq_self {s : List Char} (hhead : ∀ c, s.head? = some c → isBlank c = false)
    (hlast : ∀ c, s.getLast? = some c → isBlank c = false) : trim s = s := by
  rw [trim, trimStart_eq_self hhead, trimEnd_eq_self hlast]

theorem not_isBlank_of_head?_trimStart {s : List Char} {c : Char}
    (h : (trimStart s).head? = some c) : isBlank c = false := by
  have hhead := List.head?_dropWhile_not isBlank s
  rwa [← trimStart, h] at hhead

theorem exists_eq_trimEnd_append (s : List Char) :
    ∃ blanks, s = trimEnd s ++ blanks ∧ ∀ c ∈ blanks, isBlank c = true := by
  refine ⟨(s.reverse.takeWhile isBlank).reverse, ?_, ?_⟩
  · rw [trimEnd, ← List.reverse_append, List.takeWhile_append_dropWhile, List.reverse_reverse]
  · intro c hc
    exact List.all_eq_true.1 List.all_takeWhile c (List.mem_reverse.1 hc)

theorem not_isBlank_of_getLast?_trim {s : List Char} {c : Char} (h : (trim s).getLast? = some c) :
    isBlank c = false := by
  rw [trim, trimEnd, List.getLast?_reverse] at h
  exact not_isBlank_of_head?_trimStart h

/-- What is trimmed once is trimmed. -/
theorem trim_trim (s : List Char) : trim (trim s) = trim s := by
  refine trim_eq_self ?_ ?_
  · intro c hc
    obtain ⟨rest, hrest⟩ := List.head?_eq_some_iff.1 hc
    obtain ⟨blanks, hblanks, -⟩ := exists_eq_trimEnd_append (trimStart s)
    rw [← trim, hrest] at hblanks
    exact not_isBlank_of_head?_trimStart (s := s) (by rw [hblanks]; rfl)
  · intro c hc
    exact not_isBlank_of_getLast?_trim hc

theorem trim_blank_append {blanks : List Char} (h : ∀ c ∈ blanks, isBlank c = true) (s : List Char) :
    trim (blanks ++ s) = trim s := by
  rw [trim, trim, trimStart, trimStart, List.dropWhile_append_of_pos h]

theorem trim_append_blank {blanks : List Char} (h : ∀ c ∈ blanks, isBlank c = true)
    (s : List Char) : trim (s ++ blanks) = trim s := by
  by_cases hs : trim s = []
  · rw [hs, trim_eq_nil_iff, List.forall_mem_append]
    exact ⟨trim_eq_nil_iff.1 hs, h⟩
  · have hrev : ∀ c ∈ blanks.reverse, isBlank c = true := fun c hc => h c (List.mem_reverse.1 hc)
    rw [trim, trimStart_append hs, trimEnd, List.reverse_append,
      List.dropWhile_append_of_pos hrev]
    rfl

theorem trim_eq_trimStart {s : List Char} (h : ∀ c, s.getLast? = some c → isBlank c = false) :
    trim s = trimStart s := by
  refine trimEnd_eq_self ?_
  intro c hc
  refine h c ?_
  rw [← List.takeWhile_append_dropWhile (p := isBlank) (l := s), List.getLast?_append,
    ← trimStart, hc]
  rfl

theorem trim_append_of_last {s : List Char} (h : ∀ c, s.getLast? = some c → isBlank c = false)
    (t : List Char) : trim (trim s ++ t) = trim (s ++ t) := by
  by_cases hs : trim s = []
  · have hnil : s = [] := by
      rw [trim_eq_trimStart h, trimStart_eq_nil_iff] at hs
      cases hc : s.getLast? with
      | none => exact List.getLast?_eq_none_iff.1 hc
      | some c =>
        have hblank := hs c (List.mem_of_getLast? hc)
        rw [h c hc] at hblank
        cases hblank
    rw [hnil]
    rfl
  · have hstart : trimStart (trim s) = trimStart s := by
      rw [trim_eq_trimStart h]
      exact trimStart_eq_self fun _ => not_isBlank_of_head?_trimStart
    have hagain : trim (trim s) ≠ [] := by rwa [trim_trim]
    calc trim (trim s ++ t) = trimEnd (trimStart (trim s) ++ t) :=
          congrArg trimEnd (trimStart_append hagain)
      _ = trimEnd (trimStart s ++ t) := by rw [hstart]
      _ = trim (s ++ t) := (congrArg trimEnd (trimStart_append hs)).symm

/-- The first piece reaches as far as the first separator. -/
theorem head?_pieces (p : Char → Bool) (s : List Char) :
    (pieces p s).head? = some (s.takeWhile fun c => !p c) := by
  induction s with
  | nil => rfl
  | cons c s ih =>
    rw [pieces, List.takeWhile_cons]
    cases hc : p c with
    | true => rfl
    | false =>
      cases hs : pieces p s with
      | nil => simp [hs] at ih
      | cons piece rest =>
        rw [hs, List.head?_cons, Option.some_inj] at ih
        simp [ih]

/-- The first word stands where the blanks at the start end. -/
theorem head?_words {s : List Char} (h : trim s ≠ []) :
    (words s).head? = some ((trimStart s).takeWhile fun c => !isBlank c) := by
  induction s with
  | nil => exact absurd rfl h
  | cons c s ih =>
    cases hc : isBlank c with
    | true =>
      have hs : trim s ≠ [] := by
        simpa [trim_eq_nil_iff, hc] using h
      have hstart : trimStart (c :: s) = trimStart s := List.dropWhile_cons_of_pos hc
      rw [hstart, ← ih hs]
      simp [words, pieces, hc]
    | false =>
      have hstart : trimStart (c :: s) = c :: s := List.dropWhile_cons_of_neg (by simp [hc])
      have hpiece := head?_pieces isBlank s
      rw [hstart, List.takeWhile_cons, words, pieces]
      cases hs : pieces isBlank s with
      | nil => simp [hs] at hpiece
      | cons piece rest =>
        rw [hs, List.head?_cons, Option.some_inj] at hpiece
        simp [hc, hpiece]

/-- A word ends at its first blank. -/
theorem takeWhile_word {w rest : List Char} {b : Char} (hw : ∀ c ∈ w, isBlank c = false)
    (hb : isBlank b = true) : (w ++ b :: rest).takeWhile (fun c => !isBlank c) = w := by
  have hword : ∀ c ∈ w, (!isBlank c) = true := by
    intro c hc
    rw [hw c hc]
    rfl
  rw [List.takeWhile_append_of_pos hword, List.takeWhile_cons_of_neg, List.append_nil]
  simp [hb]

theorem trimStart_blank_word {w rest : List Char} {b : Char} (hb : isBlank b = true)
    (hw : ∀ c ∈ w, isBlank c = false) (hne : w ≠ []) :
    trimStart (b :: (w ++ rest)) = w ++ rest := by
  cases w with
  | nil => exact absurd rfl hne
  | cons c w =>
    have hc : isBlank c = false := hw c List.mem_cons_self
    rw [trimStart, List.dropWhile_cons_of_pos hb, List.cons_append,
      List.dropWhile_cons_of_neg (by simp [hc])]

theorem head?_words_blank_word {w rest : List Char} {b b' : Char} (hb : isBlank b = true)
    (hw : ∀ c ∈ w, isBlank c = false) (hne : w ≠ []) (hb' : isBlank b' = true) :
    (words (b :: (w ++ b' :: rest))).head? = some w := by
  have hstart : trimStart (b :: (w ++ b' :: rest)) = w ++ b' :: rest :=
    trimStart_blank_word hb hw hne
  have htrim : trim (b :: (w ++ b' :: rest)) ≠ [] := by
    rw [ne_eq, trim_eq_nil_iff, ← trimStart_eq_nil_iff, hstart]
    simp
  rw [head?_words htrim, hstart, takeWhile_word hw hb']

/-- A blank and what is after it do not change the first word. -/
theorem head?_words_append {s t : List Char} {b : Char} (h : trim s ≠ []) (hb : isBlank b = true) :
    (words (s ++ b :: t)).head? = (words s).head? := by
  have hst : trim (s ++ b :: t) ≠ [] := by
    rw [ne_eq, trim_eq_nil_iff, List.forall_mem_append, ← trim_eq_nil_iff]
    exact fun hs => h hs.1
  rw [head?_words h, head?_words hst, trimStart_append h, List.takeWhile_append,
    List.takeWhile_cons_of_neg (by simp [hb])]
  split
  · next hlength =>
    rw [List.append_nil, (List.takeWhile_prefix _).eq_of_length hlength]
  · rfl

theorem trimEnd_last_word (before : List Char) {w t : List Char} (hw : ∀ c ∈ w, isBlank c = false)
    (hne : w ≠ []) (ht : ∀ c ∈ t, isBlank c = true) :
    trimEnd (before ++ w ++ t) = before ++ w := by
  obtain ⟨init, last, rfl⟩ := List.eq_nil_or_concat w |>.resolve_left hne
  have hlast : isBlank last = false := hw last (by simp)
  rw [trimEnd, List.reverse_append, List.dropWhile_append_of_pos]
  · simp [hlast]
  · intro c hc
    exact ht c (List.mem_reverse.1 hc)

/-- The last word of a text, and what stands before the blank in front of it. -/
theorem eq_of_last_word {before before' w w' t t' : List Char} {b b' : Char}
    (he : before ++ b :: (w ++ t) = before' ++ b' :: (w' ++ t'))
    (hb : isBlank b = true) (hb' : isBlank b' = true)
    (hw : ∀ c ∈ w, isBlank c = false) (hw' : ∀ c ∈ w', isBlank c = false)
    (hne : w ≠ []) (hne' : w' ≠ [])
    (ht : ∀ c ∈ t, isBlank c = true) (ht' : ∀ c ∈ t', isBlank c = true) :
    before = before' ∧ w = w' := by
  have hends : before ++ b :: w = before' ++ b' :: w' := by
    have h := trimEnd_last_word (before ++ [b]) hw hne ht
    have h' := trimEnd_last_word (before' ++ [b']) hw' hne' ht'
    simp only [List.append_assoc, List.cons_append, List.nil_append] at h h'
    rw [← h, ← h', he]
  have hreversed := congrArg List.reverse hends
  simp only [List.reverse_append, List.reverse_cons, List.append_assoc,
    List.singleton_append] at hreversed
  have hword : w.reverse = w'.reverse := by
    have hrev : ∀ c ∈ w.reverse, isBlank c = false := fun c hc => hw c (List.mem_reverse.1 hc)
    have hrev' : ∀ c ∈ w'.reverse, isBlank c = false := fun c hc => hw' c (List.mem_reverse.1 hc)
    rw [← takeWhile_word hrev hb, hreversed, takeWhile_word hrev' hb']
  rw [hword] at hreversed
  obtain ⟨-, hbefore⟩ := List.cons_eq_cons.1 (List.append_cancel_left hreversed)
  exact ⟨List.reverse_inj.1 hbefore, List.reverse_inj.1 hword⟩

end TableQuery.Text
