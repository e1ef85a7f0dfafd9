import Mathlib.Data.Option.Basic
import TableQuery.Condition.Reading
import TableQuery.Proofs.Text.Blank
import TableQuery.Proofs.Text.Cut
import TableQuery.Proofs.Text.Words

/-! What the patterns of a connective match, in terms of the text alone. -/
namespace TableQuery.Connective
open TableQuery.Text

def Spells (k : Connective) (w : List Char) : Prop := w.map Char.toLower = k.word

def IsSeparator (k : Connective) (s : List Char) : Prop :=
  ∃ b w b', isBlank b = true ∧ k.Spells w ∧ isBlank b' = true ∧ s = b :: (w ++ [b'])

theorem not_isSeparator_nil (k : Connective) : ¬ k.IsSeparator [] := by
  intro hex
  obtain ⟨b, w, b', -, -, -, h⟩ := hex
  cases h

theorem forall₂_sameLetter_iff {word w : List Char} (hs : 's' ∉ word) :
    List.Forall₂ (fun l c => sameLetter l c = true) word w ↔ w.map Char.toLower = word := by
  induction word generalizing w with
  | nil => cases w <;> simp
  | cons l word ih =>
    simp only [List.mem_cons, not_or] at hs
    cases w with
    | nil => simp
    | cons c w =>
      have hletter : sameLetter l c = true ↔ c.toLower = l := by simp [sameLetter, Ne.symm hs.1]
      rw [List.forall₂_cons, hletter, ih hs.2, List.map_cons, List.cons_eq_cons]

theorem not_mem_word (k : Connective) : 's' ∉ k.word := by
  cases k <;> decide

theorem strip?_word_eq_some_iff {k : Connective} {s rest : List Char} :
    strip? sameLetter k.word s = some rest ↔ ∃ w, k.Spells w ∧ s = w ++ rest := by
  simp only [strip?_eq_some_iff, forall₂_sameLetter_iff k.not_mem_word, Spells]

theorem blank?_eq_some_iff {s rest : List Char} :
    blank? s = some rest ↔ ∃ b, isBlank b = true ∧ s = b :: rest := by
  cases s with
  | nil => simp [blank?]
  | cons c s =>
    rw [blank?]
    split
    · next hc => simp [hc]
    · next hc =>
      simp only [reduceCtorEq, false_iff]
      intro h
      obtain ⟨b, hb, he⟩ := h
      cases he
      exact hc hb

theorem followed?_eq_some_iff {k : Connective} {s rest : List Char} :
    k.followed? s = some rest ↔
      ∃ w b, k.Spells w ∧ isBlank b = true ∧ s = w ++ b :: rest := by
  rw [followed?, Option.bind_eq_some_iff]
  constructor
  · intro h
    obtain ⟨t, ht, hrest⟩ := h
    obtain ⟨w, hw, rfl⟩ := strip?_word_eq_some_iff.1 ht
    obtain ⟨b, hb, rfl⟩ := blank?_eq_some_iff.1 hrest
    exact ⟨w, b, hw, hb, rfl⟩
  · intro h
    obtain ⟨w, b, hw, hb, rfl⟩ := h
    exact ⟨b :: rest, strip?_word_eq_some_iff.2 ⟨w, hw, rfl⟩, blank?_eq_some_iff.2 ⟨b, hb, rfl⟩⟩

theorem separator?_eq_some_iff {k : Connective} {s rest : List Char} :
    (blank? s).bind k.followed? = some rest ↔ ∃ sep, k.IsSeparator sep ∧ s = sep ++ rest := by
  rw [Option.bind_eq_some_iff]
  constructor
  · intro h
    obtain ⟨t, ht, hrest⟩ := h
    obtain ⟨b, hb, rfl⟩ := blank?_eq_some_iff.1 ht
    obtain ⟨w, b', hw, hb', rfl⟩ := followed?_eq_some_iff.1 hrest
    exact ⟨_, ⟨b, w, b', hb, hw, hb', rfl⟩, by simp⟩
  · intro h
    obtain ⟨_, ⟨b, w, b', hb, hw, hb', rfl⟩, rfl⟩ := h
    refine ⟨w ++ b' :: rest, blank?_eq_some_iff.2 ⟨b, hb, by simp⟩, ?_⟩
    exact followed?_eq_some_iff.2 ⟨w, b', hw, hb', rfl⟩

theorem cut?_eq_some_iff {k : Connective} {s left right : List Char} :
    k.cut? s = some (left, right) ↔
      ∃ sep, s = left ++ sep ++ right ∧ FirstMatch k.IsSeparator left sep right :=
  leftmost_eq_some_iff_firstMatch fun _ _ => separator?_eq_some_iff

theorem cut?_eq_none_iff {k : Connective} {s : List Char} :
    k.cut? s = none ↔ ¬ Occurs k.IsSeparator s :=
  leftmost_eq_none_iff_not_occurs fun _ _ => separator?_eq_some_iff

theorem toLower_eq_self {c : Char} (h : ¬ (65 ≤ c.toNat ∧ c.toNat ≤ 90)) : c.toLower = c := dif_neg h

theorem toLower_of_isBlank {c : Char} (h : isBlank c = true) : c.toLower = c := by
  refine toLower_eq_self ?_
  simp only [isBlank, Bool.or_eq_true, Bool.and_eq_true, decide_eq_true_eq, beq_iff_eq] at h
  omega

theorem Spells.not_mem {k : Connective} {w : List Char} {c : Char} (h : k.Spells w)
    (hc : c.toLower ∉ k.word) : c ∉ w := by
  intro hmem
  rw [← h] at hc
  exact hc (List.mem_map_of_mem hmem)

theorem Spells.not_isBlank {k : Connective} {w : List Char} (h : k.Spells w) :
    ∀ c ∈ w, isBlank c = false := by
  intro c hc
  cases hb : isBlank c with
  | false => rfl
  | true =>
    have hword : k.word.any isBlank = false := by
      cases k <;> rfl
    refine absurd hc (h.not_mem ?_)
    rw [toLower_of_isBlank hb]
    intro hmem
    exact List.any_eq_false.1 hword c hmem hb

theorem Spells.ne_nil {k : Connective} {w : List Char} (h : k.Spells w) : w ≠ [] := by
  intro he
  subst he
  cases k <;> cases h

theorem Spells.unique {k j : Connective} {w : List Char} (hk : k.Spells w) (hj : j.Spells w) :
    k = j := by
  have hword : k.word = j.word := hk.symm.trans hj
  cases k with
  | and =>
    cases j with
    | and => rfl
    | or => cases hword
  | or =>
    cases j with
    | and => cases hword
    | or => rfl

/-- A text that begins with a connective has it for its first word. -/
theorem head?_words_of_leading? {k : Connective} {s rest : List Char}
    (h : k.leading? s = some rest) : ∃ w, k.Spells w ∧ (words s).head? = some w := by
  obtain ⟨w, b, hw, hb, hs⟩ := followed?_eq_some_iff.1 h
  have hne : trim s ≠ [] := by
    rw [ne_eq, trim_eq_nil_iff, ← trimStart_eq_nil_iff, hs]
    simp
  refine ⟨w, hw, ?_⟩
  rw [head?_words hne, hs, takeWhile_word hw.not_isBlank hb]

theorem leading?_word {k : Connective} {w rest : List Char} {b b' : Char} (hw : k.Spells w)
    (hb : isBlank b = true) (hb' : isBlank b' = true) :
    k.leading? (b :: (w ++ b' :: rest)) = some rest :=
  followed?_eq_some_iff.2
    ⟨w, b', hw, hb', trimStart_blank_word hb hw.not_isBlank hw.ne_nil⟩

theorem leading?_eq_none {k : Connective} {s : List Char}
    (h : ∀ w, (words s).head? = some w → ¬ k.Spells w) : k.leading? s = none := by
  cases hs : k.leading? s with
  | none => rfl
  | some rest =>
    obtain ⟨w, hw, hhead⟩ := head?_words_of_leading? hs
    exact absurd hw (h w hhead)

theorem leading?_other_word {k j : Connective} {w rest : List Char} {b b' : Char}
    (hw : k.Spells w) (hb : isBlank b = true) (hb' : isBlank b' = true) (hj : j ≠ k) :
    j.leading? (b :: (w ++ b' :: rest)) = none := by
  refine leading?_eq_none ?_
  rw [head?_words_blank_word hb hw.not_isBlank hw.ne_nil hb']
  intro w' h hw'
  cases h
  exact hj (hw'.unique hw)

theorem ending?_eq_some_iff {k : Connective} {s : List Char} :
    k.ending? s = some () ↔ ∃ b w t, isBlank b = true ∧ k.Spells w ∧
      (∀ c ∈ t, isBlank c = true) ∧ s = b :: (w ++ t) := by
  rw [ending?, Option.bind_eq_some_iff]
  constructor
  · intro h
    obtain ⟨t, hbind, ht⟩ := h
    obtain ⟨u, hu, hw⟩ := Option.bind_eq_some_iff.1 hbind
    obtain ⟨b, hb, rfl⟩ := blank?_eq_some_iff.1 hu
    obtain ⟨w, hspells, rfl⟩ := strip?_word_eq_some_iff.1 hw
    exact ⟨b, w, t, hb, hspells, List.all_eq_true.1 ((Option.guard_eq_some' _).1 ht), rfl⟩
  · intro h
    obtain ⟨b, w, t, hb, hw, ht, rfl⟩ := h
    refine ⟨t, ?_, ?_⟩
    · exact Option.bind_eq_some_iff.2
        ⟨w ++ t, blank?_eq_some_iff.2 ⟨b, hb, rfl⟩, strip?_word_eq_some_iff.2 ⟨w, hw, rfl⟩⟩
    · exact (Option.guard_eq_some' _).2 (List.all_eq_true.2 ht)

/-- A text ends with a connective in one way only. -/
theorem trailing?_eq_some_iff {k : Connective} {s left : List Char} :
    k.trailing? s = some left ↔ ∃ b w t, isBlank b = true ∧ k.Spells w ∧
      (∀ c ∈ t, isBlank c = true) ∧ s = left ++ b :: (w ++ t) := by
  rw [trailing?, Option.map_eq_some_iff]
  constructor
  · intro hex
    obtain ⟨⟨left, u⟩, h, rfl⟩ := hex
    obtain ⟨place, rfl, hp⟩ := of_leftmost h
    obtain ⟨b, w, t, hb, hw, ht, rfl⟩ := ending?_eq_some_iff.1 hp
    exact ⟨b, w, t, hb, hw, ht, rfl⟩
  · intro hex
    obtain ⟨b, w, t, hb, hw, ht, rfl⟩ := hex
    cases h : leftmost k.ending? (left ++ b :: (w ++ t)) with
    | none =>
      have hplace := leftmost_eq_none_iff.1 h left _ rfl
      rw [ending?_eq_some_iff.2 ⟨b, w, t, hb, hw, ht, rfl⟩] at hplace
      cases hplace
    | some found =>
      obtain ⟨left', u⟩ := found
      obtain ⟨place, he, hp⟩ := of_leftmost h
      obtain ⟨b', w', t', hb', hw', ht', rfl⟩ := ending?_eq_some_iff.1 hp
      obtain ⟨rfl, -⟩ := eq_of_last_word he hb hb' hw.not_isBlank hw'.not_isBlank hw.ne_nil
        hw'.ne_nil ht ht'
      exact ⟨_, rfl, rfl⟩

theorem trailing?_other_word {k j : Connective} {left w t : List Char} {b : Char}
    (hw : k.Spells w) (hb : isBlank b = true) (ht : ∀ c ∈ t, isBlank c = true) (hj : j ≠ k) :
    j.trailing? (left ++ b :: (w ++ t)) = none := by
  cases h : j.trailing? (left ++ b :: (w ++ t)) with
  | none => rfl
  | some left' =>
    obtain ⟨b', w', t', hb', hw', ht', he⟩ := trailing?_eq_some_iff.1 h
    obtain ⟨-, rfl⟩ := eq_of_last_word he hb hb' hw.not_isBlank hw'.not_isBlank hw.ne_nil
      hw'.ne_nil ht ht'
    exact absurd (hw'.unique hw) hj

theorem leading?_unique {k j : Connective} {s rest rest' : List Char}
    (h : k.leading? s = some rest) (h' : j.leading? s = some rest') : j = k := by
  obtain ⟨w, hw, hhead⟩ := head?_words_of_leading? h
  obtain ⟨w', hw', hhead'⟩ := head?_words_of_leading? h'
  rw [hhead] at hhead'
  cases hhead'
  exact hw'.unique hw

theorem trailing?_eq_none {k : Connective} {s : List Char}
    (h : ∀ w, (words s).getLast? = some w → ¬ k.Spells w) : k.trailing? s = none := by
  cases hs : k.trailing? s with
  | none => rfl
  | some left =>
    obtain ⟨b, w, t, hb, hw, ht, rfl⟩ := trailing?_eq_some_iff.1 hs
    have hlast : (words (left ++ b :: (w ++ t))).getLast? = some w := by
      rw [words_append hb, words_word_append hw.not_isBlank hw.ne_nil ht, List.getLast?_concat]
    exact absurd hw (h w hlast)

theorem trailing?_unique {k j : Connective} {s left left' : List Char}
    (h : k.trailing? s = some left) (h' : j.trailing? s = some left') : j = k := by
  obtain ⟨b, w, t, hb, hw, ht, rfl⟩ := trailing?_eq_some_iff.1 h
  by_contra hj
  rw [trailing?_other_word hw hb ht hj] at h'
  cases h'

theorem exists_some_or_none (f : Connective → Option (List Char)) :
    (∃ k rest, f k = some rest) ∨ ∀ k, f k = none := by
  by_cases h : ∃ k rest, f k = some rest
  · exact .inl h
  · refine .inr ?_
    intro k
    cases hk : f k with
    | none => rfl
    | some rest => exact absurd ⟨k, rest, hk⟩ h

end TableQuery.Connective
