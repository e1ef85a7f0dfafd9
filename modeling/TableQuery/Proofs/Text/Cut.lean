import TableQuery.Text.Cut
import Mathlib.Data.List.Forall2

/-! Where a pattern is found: the place it matches at, and no place before. -/
namespace TableQuery.Text
variable {α : Type}

theorem strip?_eq_some_iff {same : Char → Char → Bool} {word s rest : List Char} :
    strip? same word s = some rest ↔
      ∃ found, List.Forall₂ (fun w c => same w c = true) word found ∧ s = found ++ rest := by
  fun_induction strip? same word s with
  | case1 s =>
    constructor
    · intro h
      exact ⟨[], .nil, Option.some.inj h⟩
    · intro h
      obtain ⟨found, hfound, hs⟩ := h
      cases hfound
      rw [hs]
      rfl
  | case2 w ws => simp
  | case3 w ws c s hsame ih =>
    rw [ih]
    constructor
    · intro hex
      obtain ⟨found, hfound, rfl⟩ := hex
      exact ⟨c :: found, .cons hsame hfound, rfl⟩
    · intro h
      obtain ⟨found, hfound, he⟩ := h
      cases hfound with
      | cons _ hrest =>
        obtain ⟨rfl, rfl⟩ := List.cons_eq_cons.1 he
        exact ⟨_, hrest, rfl⟩
  | case4 w ws c s hsame =>
    simp only [reduceCtorEq, false_iff]
    intro h
    obtain ⟨found, hfound, he⟩ := h
    cases hfound with
    | cons hw _ =>
      obtain ⟨rfl, -⟩ := List.cons_eq_cons.1 he
      exact hsame hw

theorem leftmost_eq_none_iff {pattern : List Char → Option α} {s : List Char} :
    leftmost pattern s = none ↔ ∀ before place, s = before ++ place → pattern place = none := by
  induction s with
  | nil =>
    rw [leftmost, Option.map_eq_none_iff]
    constructor
    · intro h before place he
      obtain ⟨rfl, rfl⟩ := List.append_eq_nil_iff.1 he.symm
      exact h
    · intro h
      exact h [] [] rfl
  | cons c s ih =>
    cases hp : pattern (c :: s) with
    | some found =>
      rw [leftmost, hp]
      simp only [reduceCtorEq, false_iff]
      intro h
      rw [h [] (c :: s) rfl] at hp
      cases hp
    | none =>
      rw [leftmost, hp, Option.map_eq_none_iff, ih]
      constructor
      · intro h before place he
        cases before with
        | nil => rwa [← List.nil_append place, ← he]
        | cons b before => exact h before place (List.cons_eq_cons.1 he).2
      · intro h before place he
        exact h (c :: before) place (by rw [he]; rfl)

/-- The pattern matches at the place found, and nowhere before it. -/
theorem leftmost_eq_some_iff {pattern : List Char → Option α} {s before : List Char} {found : α} :
    leftmost pattern s = some (before, found) ↔
      ∃ place, s = before ++ place ∧ pattern place = some found ∧
        ∀ before' place', s = before' ++ place' → before'.length < before.length →
          pattern place' = none := by
  induction s generalizing before with
  | nil =>
    rw [leftmost]
    constructor
    · intro h
      obtain ⟨a, ha, he⟩ := Option.map_eq_some_iff.1 h
      cases he
      exact ⟨[], rfl, ha, fun _ _ _ hlt => absurd hlt (Nat.not_lt_zero _)⟩
    · intro hplace
      obtain ⟨place, he, hp, -⟩ := hplace
      obtain ⟨rfl, rfl⟩ := List.append_eq_nil_iff.1 he.symm
      rw [hp]
      rfl
  | cons c s ih =>
    cases hc : pattern (c :: s) with
    | some a =>
      rw [leftmost, hc]
      constructor
      · intro h
        cases h
        exact ⟨c :: s, rfl, hc, fun _ _ _ hlt => absurd hlt (Nat.not_lt_zero _)⟩
      · intro hplace
        obtain ⟨place, he, hp, hfirst⟩ := hplace
        cases before with
        | nil =>
          rw [List.nil_append] at he
          rw [← he, hc] at hp
          cases hp
          rfl
        | cons b before =>
          rw [hfirst [] (c :: s) rfl (Nat.succ_pos _)] at hc
          cases hc
    | none =>
      rw [leftmost, hc]
      constructor
      · intro h
        obtain ⟨⟨b, a⟩, hs, he⟩ := Option.map_eq_some_iff.1 h
        cases he
        obtain ⟨place, rfl, hp, hfirst⟩ := ih.1 hs
        refine ⟨place, rfl, hp, ?_⟩
        intro before' place' he hlt
        cases before' with
        | nil => rwa [← List.nil_append place', ← he]
        | cons b' before' =>
          exact hfirst before' place' (List.cons_eq_cons.1 he).2 (Nat.lt_of_succ_lt_succ hlt)
      · intro hplace
        obtain ⟨place, he, hp, hfirst⟩ := hplace
        cases before with
        | nil =>
          rw [List.nil_append] at he
          rw [← he, hc] at hp
          cases hp
        | cons b before =>
          obtain ⟨rfl, hs⟩ := List.cons_eq_cons.1 he
          have hrest : leftmost pattern s = some (before, found) := by
            refine ih.2 ⟨place, hs, hp, ?_⟩
            intro before' place' he' hlt
            exact hfirst (c :: before') place' (by rw [he']; rfl) (Nat.succ_lt_succ hlt)
          rw [hrest]
          rfl

structure FirstMatch (M : List Char → Prop) (before found after : List Char) : Prop where
  holds : M found
  first : ∀ before' found' after', M found' →
    before ++ found ++ after = before' ++ found' ++ after' → before.length ≤ before'.length

def Occurs (M : List Char → Prop) (s : List Char) : Prop :=
  ∃ before found after, M found ∧ s = before ++ found ++ after

theorem infix_left (left mid right : List Char) : left <:+: left ++ mid ++ right :=
  ⟨[], mid ++ right, by rw [List.nil_append, List.append_assoc]⟩

theorem infix_right (left mid right : List Char) : right <:+: left ++ mid ++ right :=
  ⟨left ++ mid, [], List.append_nil _⟩

theorem Occurs.of_infix {M : List Char → Prop} {s t : List Char} (h : Occurs M s)
    (hst : s <:+: t) : Occurs M t := by
  obtain ⟨before, found, after, hfound, rfl⟩ := h
  obtain ⟨left, right, rfl⟩ := hst
  exact ⟨left ++ before, found, after ++ right, hfound, by simp only [List.append_assoc]⟩

theorem FirstMatch.not_occurs {M : List Char → Prop} {before found after : List Char}
    (h : FirstMatch M before found after) (hM : ¬ M []) : ¬ Occurs M before := by
  intro hex
  obtain ⟨left, found', right, hfound', rfl⟩ := hex
  have hle := h.first left found' (right ++ found ++ after) hfound'
    (by simp only [List.append_assoc])
  have hlength : found'.length = 0 := by
    simp only [List.length_append] at hle
    omega
  exact hM (List.eq_nil_of_length_eq_zero hlength ▸ hfound')

/-- What is found first is found first in a longer text, if no match that begins before it
reaches into the new part. -/
theorem FirstMatch.append {M : List Char → Prop} {before found after t : List Char}
    (h : FirstMatch M before found after)
    (ht : ∀ before' found' after', M found' →
      before ++ found ++ (after ++ t) = before' ++ found' ++ after' →
      before'.length < before.length →
      (before' ++ found').length ≤ (before ++ found ++ after).length) :
    FirstMatch M before found (after ++ t) := by
  refine ⟨h.holds, ?_⟩
  intro before' found' after' hfound' he
  by_contra hlt
  have hlength := ht before' found' after' hfound' he (Nat.lt_of_not_le hlt)
  rw [← List.append_assoc] at he
  have hprefix : before' ++ found' <+: before ++ found ++ after :=
    List.prefix_of_prefix_length_le ⟨after', he.symm⟩ (List.prefix_append _ t) hlength
  obtain ⟨rest, hrest⟩ := hprefix
  exact hlt (h.first before' found' rest hfound' hrest.symm)

section
variable {pattern : List Char → Option (List Char)} {M : List Char → Prop}
  (hM : ∀ s rest, pattern s = some rest ↔ ∃ found, M found ∧ s = found ++ rest)
include hM

theorem eq_none_of_not_occurs (before : List Char) {place : List Char}
    (h : ∀ found after, M found → before ++ place ≠ before ++ found ++ after) :
    pattern place = none := by
  cases hp : pattern place with
  | none => rfl
  | some after =>
    obtain ⟨found, hfound, rfl⟩ := (hM _ _).1 hp
    exact absurd (List.append_assoc _ _ _).symm (h found after hfound)

theorem leftmost_eq_none_iff_not_occurs {s : List Char} :
    leftmost pattern s = none ↔ ¬ Occurs M s := by
  rw [leftmost_eq_none_iff]
  constructor
  · intro h hs
    obtain ⟨before, found, after, hfound, rfl⟩ := hs
    have hnone := h before (found ++ after) (List.append_assoc _ _ _)
    rw [(hM (found ++ after) after).2 ⟨found, hfound, rfl⟩] at hnone
    cases hnone
  · intro h before place he
    subst he
    refine eq_none_of_not_occurs hM before ?_
    intro found after hfound he
    exact h ⟨before, found, after, hfound, he⟩

theorem leftmost_eq_some_iff_firstMatch {s before after : List Char} :
    leftmost pattern s = some (before, after) ↔
      ∃ found, s = before ++ found ++ after ∧ FirstMatch M before found after := by
  rw [leftmost_eq_some_iff]
  constructor
  · intro h
    obtain ⟨place, rfl, hp, hfirst⟩ := h
    obtain ⟨found, hfound, rfl⟩ := (hM _ _).1 hp
    refine ⟨found, (List.append_assoc _ _ _).symm, hfound, ?_⟩
    intro before' found' after' hfound' he
    by_contra hlt
    rw [List.append_assoc, List.append_assoc] at he
    have hnone := hfirst before' (found' ++ after') he (Nat.lt_of_not_le hlt)
    rw [(hM (found' ++ after') after').2 ⟨found', hfound', rfl⟩] at hnone
    cases hnone
  · intro h
    obtain ⟨found, rfl, hfound, hfirst⟩ := h
    refine ⟨found ++ after, List.append_assoc _ _ _, (hM _ _).2 ⟨found, hfound, rfl⟩, ?_⟩
    intro before' place' he hlt
    refine eq_none_of_not_occurs hM before' ?_
    intro found' after' hfound' he'
    exact absurd (hfirst before' found' after' hfound' (he.trans he')) (Nat.not_le_of_lt hlt)

end

theorem strip?_beq_eq_some_iff {word s rest : List Char} :
    strip? (· == ·) word s = some rest ↔ ∃ found, word = found ∧ s = found ++ rest := by
  rw [strip?_eq_some_iff]
  simp only [beq_iff_eq, List.forall₂_eq_eq_eq]

theorem cutAt?_eq_some_iff {word s before after : List Char} :
    cutAt? word s = some (before, after) ↔
      s = before ++ word ++ after ∧ FirstMatch (word = ·) before word after := by
  rw [cutAt?, leftmost_eq_some_iff_firstMatch fun s rest => strip?_beq_eq_some_iff]
  constructor
  · intro hex
    obtain ⟨found, rfl, h⟩ := hex
    obtain rfl := h.holds
    exact ⟨rfl, h⟩
  · intro hex
    obtain ⟨hs, h⟩ := hex
    exact ⟨word, hs, h⟩

theorem cutAt?_eq_none_iff {word s : List Char} : cutAt? word s = none ↔ ¬ word <:+: s := by
  rw [cutAt?, leftmost_eq_none_iff_not_occurs fun s rest => strip?_beq_eq_some_iff, not_iff_not]
  constructor
  · intro h
    obtain ⟨before, found, after, rfl, rfl⟩ := h
    exact ⟨before, after, rfl⟩
  · intro h
    obtain ⟨before, after, rfl⟩ := h
    exact ⟨before, word, after, rfl, rfl⟩

theorem cutAt?_append {word s before after : List Char} (h : cutAt? word s = some (before, after))
    (t : List Char) : cutAt? word (s ++ t) = some (before, after ++ t) := by
  obtain ⟨rfl, hfirst⟩ := cutAt?_eq_some_iff.1 h
  refine cutAt?_eq_some_iff.2 ⟨List.append_assoc _ _ _, hfirst.append ?_⟩
  intro before' found' after' hfound' _ hlt
  rw [← hfound']
  simp only [List.length_append]
  omega

end TableQuery.Text
