import TableQuery.Proofs.Condition.Dangling
import TableQuery.Proofs.Query.Stages

/-! Queries whose condition ends with a connective. Only behind another connective is it rejected;
otherwise it is taken for a part of the last literal. -/
namespace TableQuery
open TableQuery.Text

/-- Nothing but the blanks behind the last word is trimmed. -/
theorem Text.trim_append_word {s w blanks : List Char} (hs : trim s = s) (hne : s ≠ [])
    (hw : ∀ c ∈ w, isBlank c = false) (hword : w ≠ []) (hblanks : ∀ c ∈ blanks, isBlank c = true) :
    trim (s ++ ' ' :: (w ++ blanks)) = s ++ ' ' :: w := by
  have hlast : ∀ c, s.getLast? = some c → isBlank c = false := by
    intro c hc
    rw [← hs] at hc
    exact not_isBlank_of_getLast?_trim hc
  have hstart : trimStart s = s := (trim_eq_trimStart hlast).symm.trans hs
  have hend := trimEnd_last_word (s ++ [' ']) hw hword hblanks
  simp only [List.append_assoc, List.cons_append, List.nil_append] at hend
  rw [trim, trimStart_append (by rwa [hs]), hstart, hend]

namespace Condition

/-- What a condition with a connective at its end is read as. -/
theorem ofText_append_word {p : Phrase} {c : Condition} {k : Connective} {w : String}
    (hp : trimmed p.text = p.text) (hc : ofText p.text = .ok (some c)) (hw : k.Spells w.toList) :
    ((∃ j : Connective, j.EndsIn p.text.toList) →
      ∃ e, ofText (p.text ++ " " ++ w) = .error e ∧ e.isSyntax = true) ∧
    ((∀ j : Connective, ¬ j.EndsIn p.text.toList) →
      ofText (p.text ++ " " ++ w) = .ok (some (c.lengthen w.toList))) := by
  have hlast : ∀ b, p.text.toList.getLast? = some b → isBlank b = false := by
    intro b hb
    rw [← hp, trimmed, String.toList_ofList] at hb
    exact not_isBlank_of_getLast?_trim hb
  have htext : (p.text ++ " " ++ w).toList = p.text.toList ++ ' ' :: w.toList := by
    simp
  have hne : trim (p.text ++ " " ++ w).toList ≠ [] := by
    rw [htext, ne_eq, trim_eq_nil_iff, List.forall_mem_append, ← trim_eq_nil_iff]
    exact fun h => p.nonblank h.1
  rw [ofText_eq_ok_some_iff p.nonblank] at hc
  obtain ⟨herror, hok⟩ := read_append_word p.flat hc hlast hw
  refine ⟨?_, ?_⟩
  · intro hends
    obtain ⟨e, he⟩ := herror hends
    rw [← htext] at he
    exact ⟨e, (ofText_eq_error_iff hne).2 he, isSyntax_of_read_eq_error he⟩
  · intro hnot
    rw [ofText_eq_ok_some_iff hne, htext]
    exact hok hnot

end Condition

namespace Query

theorem clause?_dangling {q : Query} {p : Phrase} {k : Connective} {w blanks : String}
    (hp : trimmed p.text = p.text) (hw : k.Spells w.toList)
    (hblanks : ∀ b ∈ blanks.toList, isBlank b = true)
    (hq : q.condition = some (p.text ++ " " ++ w ++ blanks)) :
    q.clause? .condition = some (p.text ++ " " ++ w) := by
  have htrim : trim p.text.toList = p.text.toList := by
    have h := congrArg String.toList hp
    rwa [trimmed, String.toList_ofList] at h
  have hne : p.text.toList ≠ [] := htrim ▸ p.nonblank
  have htrimmed : trimmed (p.text ++ " " ++ w ++ blanks) = p.text ++ " " ++ w := by
    rw [← String.toList_inj, trimmed, String.toList_ofList]
    have hword := trim_append_word htrim hne hw.not_isBlank hw.ne_nil hblanks
    simpa using hword
  have hempty : p.text ++ " " ++ w ≠ "" := by
    rw [ne_eq, ← String.toList_inj]
    simp
  rw [clause?, get?, hq, Option.map_some, htrimmed, Option.filter_some,
    if_pos (decide_eq_true hempty)]

/-- A dangling connective makes a condition that could be read a syntax error exactly if another
connective stands in front of it. Otherwise it is the last word of the last literal. -/
theorem execute_dangling {q : Query} {rows : List Row} {p : Phrase} {c : Condition}
    {k : Connective} {w blanks : String} (hrows : rows ≠ []) (hp : trimmed p.text = p.text)
    (hc : Condition.ofText p.text = .ok (some c)) (hw : k.Spells w.toList)
    (hblanks : ∀ b ∈ blanks.toList, isBlank b = true)
    (hq : q.condition = some (p.text ++ " " ++ w ++ blanks)) :
    ((∃ e, q.execute rows = .error e ∧ e.isSyntax = true) ↔
      ∃ j : Connective, j.EndsIn p.text.toList) ∧
    ((∀ j : Connective, ¬ j.EndsIn p.text.toList) →
      q.execute rows =
        .ok ((q.arranged ((c.lengthen w.toList).select rows).1).map q.selection.project)) := by
  have hclause := clause?_dangling hp hw hblanks hq
  obtain ⟨herror, hok⟩ := Condition.ofText_append_word hp hc hw
  have hresult : (∀ j : Connective, ¬ j.EndsIn p.text.toList) → q.execute rows =
      .ok ((q.arranged ((c.lengthen w.toList).select rows).1).map q.selection.project) := by
    intro hnot
    have hkept : q.restricted rows = .ok ((c.lengthen w.toList).select rows).1 := by
      simp [restricted, hrows, hclause, hok hnot, Except.map]
    rw [execute_eq, hkept]
    rfl
  refine ⟨⟨?_, ?_⟩, hresult⟩
  · intro hfails
    obtain ⟨e, he, -⟩ := hfails
    by_contra hnot
    rw [hresult fun j hj => hnot ⟨j, hj⟩] at he
    cases he
  · intro hends
    obtain ⟨e, he, hsyntax⟩ := herror hends
    have hrestricted : q.restricted rows = .error e := by
      simp [restricted, hrows, hclause, he, Except.map]
    refine ⟨e, ?_, hsyntax⟩
    rw [execute_eq, hrestricted]
    rfl

/-- The connective of `a = 1 and` becomes a part of the literal, which no row meets. -/
theorem execute_dangling_and :
    let p : Phrase := ⟨"a = 1", by decide, by decide⟩
    let c : Condition := .leaf ⟨"a", .eq, "1", none⟩
    let q : Query := { condition := some "a = 1 and" }
    let rows := [Row.ofList [("a", .int 1)]]
    rows ≠ [] ∧ trimmed p.text = p.text ∧ Condition.ofText p.text = .ok (some c) ∧
      Connective.Spells .and "and".toList ∧ q.condition = some (p.text ++ " " ++ "and" ++ "") ∧
      c.lengthen "and".toList = .leaf ⟨"a", .eq, "1 and", none⟩ ∧ q.execute rows = .ok [] := by
  intro p c q rows
  have hrows : rows ≠ [] := List.cons_ne_nil _ _
  have hp : trimmed p.text = p.text := by decide
  have hc : Condition.ofText p.text = .ok (some c) := by decide +kernel
  have hw : Connective.Spells .and "and".toList := by
    unfold Connective.Spells
    decide
  have hq : q.condition = some (p.text ++ " " ++ "and" ++ "") := by decide
  have hnot : ∀ j : Connective, ¬ j.EndsIn p.text.toList := by
    intro j hj
    obtain ⟨before, b, u, hb, hu, he⟩ := hj
    have hnone : j.trailing? p.text.toList = none := by
      cases j <;> decide
    rw [Connective.trailing?_eq_some_iff.2 ⟨b, u, [], hb, hu, nofun, by rwa [List.append_nil]⟩]
      at hnone
    cases hnone
  have hkept : ((c.lengthen "and".toList).select rows).1 = [] := by decide +kernel
  refine ⟨hrows, hp, hc, hw, hq, by decide, ?_⟩
  rw [(execute_dangling hrows hp hc hw (List.forall_mem_nil _) hq).2 hnot, hkept, arranged_nil]
  rfl

end Query
end TableQuery
