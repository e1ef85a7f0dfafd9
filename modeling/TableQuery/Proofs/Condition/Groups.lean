import TableQuery.Proofs.Condition.Chain
import TableQuery.Proofs.Condition.Connective
import TableQuery.Proofs.Condition.Reading

/-! Conditions with groups: connectives next to a group bind from the right, whatever they are. -/
namespace TableQuery
open TableQuery.Text

/-- Groups one after another with a connective between any two. The last operand may stand
without parentheses, or be a group with a bare operand before it. -/
inductive IsArranged : String → Chain Phrase → Prop where
  | group (p : Phrase) : IsArranged ("(" ++ p.text ++ ")") (.last p)
  | bare (p : Phrase) : IsArranged p.text (.last p)
  | link (p : Phrase) {k : Connective} {w rest : String} {q : Chain Phrase}
      (hw : k.Spells w.toList) (h : IsArranged rest q) :
      IsArranged ("(" ++ p.text ++ ") " ++ w ++ " " ++ rest) (.link p k q)
  | trailing (p g : Phrase) {k : Connective} {w : String} (hw : k.Spells w.toList)
      (hfirst : ∀ v, (words p.text.toList).head? = some v → ∀ j : Connective, ¬ j.Spells v) :
      IsArranged (p.text ++ " " ++ w ++ " (" ++ g.text ++ ")") (.link p k (.last g))

theorem Connective.Spells.flat {k : Connective} {w : List Char} (h : k.Spells w) : Flat w := by
  have hopen : Char.toLower '(' ∉ k.word := by
    cases k <;> decide
  have hclose : Char.toLower ')' ∉ k.word := by
    cases k <;> decide
  exact ⟨h.not_mem hopen, h.not_mem hclose⟩

namespace Condition

section
variable {g : Grouped} {k : Connective}

theorem shape_of_leading {right : List Char}
    (hk : k.leading? (g.before ++ g.after) = some right)
    (hother : ∀ j, j ≠ k → j.leading? (g.before ++ g.after) = none) :
    g.shape = .joined k g.inner right := by
  cases k with
  | and => rw [Grouped.shape, hk]
  | or => rw [Grouped.shape, hother .and nofun, hk]

theorem shape_of_trailing {left : List Char}
    (hleading : ∀ j : Connective, j.leading? (g.before ++ g.after) = none)
    (hk : k.trailing? (g.before ++ g.after) = some left)
    (hother : ∀ j, j ≠ k → j.trailing? (g.before ++ g.after) = none) :
    g.shape = .joined k left g.inner := by
  rw [Grouped.shape, hleading .and, hleading .or]
  cases k with
  | and => rw [hk]
  | or => rw [hother .and nofun, hk]

end

theorem read_group {inner : List Char} (h : Flat inner) :
    read ('(' :: (inner ++ [')'])) = read inner := by
  refine read_of_group ?_
  have hshape := shape_append flat_nil h []
  rw [List.nil_append] at hshape
  rw [hshape]
  rfl

theorem read_leading {inner w rest : List Char} {k : Connective} (h : Flat inner)
    (hw : k.Spells w) :
    read ('(' :: (inner ++ ')' :: ' ' :: (w ++ ' ' :: rest))) =
      joinM k (read inner) (read rest) := by
  refine read_of_joined ?_
  have hshape := shape_append flat_nil h (' ' :: (w ++ ' ' :: rest))
  rw [List.nil_append] at hshape
  rw [hshape]
  refine congrArg Except.ok (shape_of_leading ?_ ?_)
  · exact Connective.leading?_word hw rfl rfl
  · intro j hj
    exact Connective.leading?_other_word hw rfl rfl hj

theorem read_trailing {before w inner : List Char} {k : Connective} (hbefore : Flat before)
    (hblank : trim before ≠ []) (hw : k.Spells w) (h : Flat inner)
    (hfirst : ∀ v, (words before).head? = some v → ∀ j : Connective, ¬ j.Spells v) :
    read (before ++ ' ' :: (w ++ ' ' :: '(' :: (inner ++ [')']))) =
      joinM k (read before) (read inner) := by
  refine read_of_joined ?_
  have hflat : Flat (before ++ ' ' :: (w ++ [' '])) :=
    hbefore.append (Flat.append (s := [' ']) (by decide) (hw.flat.append (by decide)))
  have hend : ∀ c ∈ [' '], isBlank c = true := List.forall_mem_singleton.2 rfl
  have hshape := shape_append hflat h []
  simp only [List.append_assoc, List.cons_append, List.nil_append] at hshape
  rw [hshape]
  refine congrArg Except.ok (shape_of_trailing ?_ ?_ ?_)
  · intro j
    rw [List.append_nil]
    refine Connective.leading?_eq_none ?_
    intro v hv
    rw [head?_words_append hblank rfl] at hv
    exact hfirst v hv j
  · rw [List.append_nil]
    exact Connective.trailing?_eq_some_iff.2 ⟨' ', w, [' '], rfl, hw, hend, rfl⟩
  · intro j hj
    rw [List.append_nil]
    exact Connective.trailing?_other_word hw rfl hend hj

theorem read_of_isArranged {text : String} {q : Chain Phrase} (h : IsArranged text q) :
    read text.toList = q.nestM fun p => read p.text.toList := by
  induction h with
  | group p =>
    rw [Chain.nestM, ← read_group p.flat]
    simp
  | bare p => rfl
  | link p hw _ ih =>
    rw [Chain.nestM, ← ih, ← read_leading p.flat hw]
    simp
  | trailing p g hw hfirst =>
    rw [Chain.nestM, Chain.nestM, ← read_trailing p.flat p.nonblank hw g.flat hfirst]
    simp

theorem nonblank_of_isArranged {text : String} {q : Chain Phrase} (h : IsArranged text q) :
    trim text.toList ≠ [] := by
  cases h with
  | group p => exact trim_ne_nil_of_mem (c := '(') (by simp) rfl
  | bare p => exact p.nonblank
  | link p hw _ => exact trim_ne_nil_of_mem (c := '(') (by simp) rfl
  | trailing p g hw hfirst => exact trim_ne_nil_of_mem (c := '(') (by simp) rfl

structure IsReadBy (text : String) (q : Chain Phrase) : Prop where
  tree : ∀ c, ofText text = .ok (some c) ↔
    ∃ parts, q.Related (fun p d => ofText p.text = .ok (some d)) parts ∧ c = parts.nest
  fails : (∃ e, ofText text = .error e) ↔ ∃ p ∈ q.items, ∃ e, ofText p.text = .error e
  fault : ∀ e, ofText text = .error e ↔
    ∃ before p after, q.items = before ++ p :: after ∧
      (∀ b ∈ before, ∃ c, ofText b.text = .ok (some c)) ∧ ofText p.text = .error e

theorem isReadBy_of_isArranged {text : String} {q : Chain Phrase} (h : IsArranged text q) :
    IsReadBy text q := by
  have hread := read_of_isArranged h
  have hnonblank := nonblank_of_isArranged h
  have hok : ∀ (p : Phrase) c, read p.text.toList = .ok c ↔ ofText p.text = .ok (some c) :=
    fun p _ => (ofText_eq_ok_some_iff p.nonblank).symm
  have herror : ∀ (p : Phrase) e, read p.text.toList = .error e ↔ ofText p.text = .error e :=
    fun p _ => (ofText_eq_error_iff p.nonblank).symm
  refine ⟨?_, ?_, ?_⟩
  · intro c
    rw [ofText_eq_ok_some_iff hnonblank, hread, Chain.nestM_eq_ok_iff (g := id)
      (R := fun p d => ofText p.text = .ok (some d)) (by simp [hok])]
    simp only [Chain.map_id]
  · simp only [ofText_eq_error_iff hnonblank, hread, Chain.exists_nestM_eq_error_iff, herror]
  · intro e
    rw [ofText_eq_error_iff hnonblank, hread, Chain.nestM_eq_error_iff, FirstFault]
    simp only [hok, herror]

theorem ofText_leftmost_fault :
    IsArranged "(a = 1) oR (b) and c"
      (.link ⟨"a = 1", by decide, by decide⟩ .or
        (.link ⟨"b", by decide, by decide⟩ .and (.last ⟨"c", by decide, by decide⟩))) ∧
    ofText "(a = 1) oR (b) and c" = .error (.condition "b") := by
  have htail : IsArranged "(b) and c"
      (.link ⟨"b", by decide, by decide⟩ .and (.last ⟨"c", by decide, by decide⟩)) :=
    .link (k := .and) (w := "and") ⟨"b", by decide, by decide⟩ rfl
      (.bare ⟨"c", by decide, by decide⟩)
  have hchain : IsArranged "(a = 1) oR (b) and c" (.link ⟨"a = 1", by decide, by decide⟩ .or
      (.link ⟨"b", by decide, by decide⟩ .and (.last ⟨"c", by decide, by decide⟩))) :=
    .link (k := .or) (w := "oR") ⟨"a = 1", by decide, by decide⟩ rfl htail
  refine ⟨hchain, ((isReadBy_of_isArranged hchain).fault _).2 ?_⟩
  refine ⟨[_], _, [_], rfl, ?_, ?_⟩
  · intro b hb
    cases List.mem_singleton.1 hb
    exact ⟨_, (ofText_eq_ok_some_iff (by decide)).2 ((read_of_comparison rfl).trans rfl)⟩
  · exact (ofText_eq_error_iff (by decide)).2 ((read_of_comparison rfl).trans rfl)

end Condition
end TableQuery
