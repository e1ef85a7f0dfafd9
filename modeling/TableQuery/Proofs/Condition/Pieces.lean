import TableQuery.Proofs.Condition.Chain
import TableQuery.Proofs.Condition.Comparison
import TableQuery.Proofs.Condition.Connective
import TableQuery.Proofs.Condition.Reading

/-! Conditions without groups: the text is cut at each AND, and each piece at each OR. -/
namespace TableQuery
open TableQuery.Text

/-- The pieces of a text between the separators that are found one after another, each the
leftmost in what the one before leaves. -/
inductive IsCut (k : Connective) : List Char → Chain (List Char) → Prop where
  | whole {s : List Char} (h : ¬ Occurs k.IsSeparator s) : IsCut k s (.last s)
  | next {left sep right : List Char} {rest : Chain (List Char)}
      (h : FirstMatch k.IsSeparator left sep right) (hrest : IsCut k right rest) :
      IsCut k (left ++ sep ++ right) (.link left k rest)

def IsTwiceCut (s : List Char) (parts : Chain (Chain (List Char))) : Prop :=
  ∃ pieces, IsCut .and s pieces ∧ pieces.Related (IsCut .or) parts

theorem IsCut.of_cut?_eq_none {k : Connective} {s : List Char} (h : k.cut? s = none) :
    IsCut k s (.last s) := .whole (Connective.cut?_eq_none_iff.1 h)

theorem IsCut.of_cut?_eq_some {k : Connective} {s left right : List Char}
    {rest : Chain (List Char)} (h : k.cut? s = some (left, right)) (hrest : IsCut k right rest) :
    IsCut k s (.link left k rest) := by
  obtain ⟨sep, rfl, hfirst⟩ := Connective.cut?_eq_some_iff.1 h
  exact .next hfirst hrest

theorem exists_isCut (k : Connective) (s : List Char) : ∃ pieces, IsCut k s pieces := by
  induction hn : s.length using Nat.strong_induction_on generalizing s with
  | _ n ih =>
    cases hs : k.cut? s with
    | none => exact ⟨_, .of_cut?_eq_none hs⟩
    | some sides =>
      obtain ⟨left, right⟩ := sides
      obtain ⟨rest, hrest⟩ := ih _ (hn ▸ (Connective.length_cut hs).2) right rfl
      exact ⟨_, .of_cut?_eq_some hs hrest⟩

theorem exists_isTwiceCut (s : List Char) : ∃ parts, IsTwiceCut s parts := by
  obtain ⟨pieces, hpieces⟩ := exists_isCut .and s
  obtain ⟨parts, hparts⟩ := Chain.exists_related (exists_isCut .or) pieces
  exact ⟨parts, pieces, hpieces, hparts⟩

theorem IsCut.connectives_eq {k : Connective} {s : List Char} {pieces : Chain (List Char)}
    (h : IsCut k s pieces) : ∀ j ∈ pieces.connectives, j = k := by
  induction h with
  | whole _ => nofun
  | next _ _ ih => exact List.forall_mem_cons.2 ⟨rfl, ih⟩

namespace Condition

def readPiece (s : List Char) : Except QueryError Condition :=
  match Comparison.read? s with
  | some c => .ok (leaf c)
  | none => .error (.noOperator (String.ofList s))

theorem read_of_not_occurs {s : List Char} (hs : Flat s)
    (hand : ¬ Occurs Connective.and.IsSeparator s) (hor : ¬ Occurs Connective.or.IsSeparator s) :
    read s = readPiece s := by
  refine read_of_comparison ?_
  rw [shape_of_flat hs, flatShape, Connective.cut?_eq_none_iff.2 hand,
    Connective.cut?_eq_none_iff.2 hor]

theorem read_of_isCut_or {s : List Char} {pieces : Chain (List Char)} (h : IsCut .or s pieces)
    (hs : Flat s) (hand : ¬ Occurs Connective.and.IsSeparator s) :
    read s = pieces.nestM readPiece := by
  induction h with
  | whole hor => exact read_of_not_occurs hs hand hor
  | @next left sep right rest hfirst _ ih =>
    have hleft := infix_left left sep right
    have hright := infix_right left sep right
    have hshape : shape (left ++ sep ++ right) = .ok (.joined .or left right) := by
      rw [shape_of_flat hs, flatShape, Connective.cut?_eq_none_iff.2 hand,
        Connective.cut?_eq_some_iff.2 ⟨sep, rfl, hfirst⟩]
    rw [read_of_joined hshape, Chain.nestM, joinM,
      ih (hs.of_infix hright) fun h => hand (h.of_infix hright),
      read_of_not_occurs (hs.of_infix hleft) (fun h => hand (h.of_infix hleft))
        (hfirst.not_occurs (Connective.not_isSeparator_nil _))]

theorem read_of_isCut_and {s : List Char} {pieces : Chain (List Char)}
    {parts : Chain (Chain (List Char))} (h : IsCut .and s pieces) (hs : Flat s)
    (hparts : pieces.Related (IsCut .or) parts) :
    read s = parts.nestM (Chain.nestM readPiece) := by
  induction h generalizing parts with
  | whole hand =>
    cases hparts with
    | last hor => exact read_of_isCut_or hor hs hand
  | @next left sep right rest hfirst _ ih =>
    have hleft := infix_left left sep right
    have hright := infix_right left sep right
    have hshape : shape (left ++ sep ++ right) = .ok (.joined .and left right) := by
      rw [shape_of_flat hs, flatShape, Connective.cut?_eq_some_iff.2 ⟨sep, rfl, hfirst⟩]
    cases hparts with
    | link k hor hrest =>
      rw [read_of_joined hshape, Chain.nestM, joinM, ih (hs.of_infix hright) hrest,
        read_of_isCut_or hor (hs.of_infix hleft)
          (hfirst.not_occurs (Connective.not_isSeparator_nil _))]

theorem readPiece_eq_ok_iff {s : List Char} {c : Condition} :
    readPiece s = .ok c ↔ ∃ d : Comparison, d.IsReading s ∧ c = leaf d := by
  simp only [← Comparison.read?_eq_some_iff]
  cases hs : Comparison.read? s <;> simp [readPiece, hs, eq_comm]

theorem exists_readPiece_eq_ok_iff {s : List Char} :
    (∃ c, readPiece s = .ok c) ↔ hasOperator s = true := by
  constructor
  · intro hex
    obtain ⟨c, hc⟩ := hex
    by_contra h
    rw [readPiece, Comparison.read?_eq_none (Bool.not_eq_true _ ▸ h)] at hc
    cases hc
  · intro h
    obtain ⟨d, hd⟩ := Comparison.exists_read? h
    exact ⟨leaf d, by rw [readPiece, hd]⟩

theorem readPiece_eq_error_iff {s : List Char} {e : QueryError} :
    readPiece s = .error e ↔ hasOperator s = false ∧ e = .noOperator (String.ofList s) := by
  cases h : hasOperator s with
  | false => simp [readPiece, Comparison.read?_eq_none h, eq_comm]
  | true =>
    obtain ⟨c, hc⟩ := exists_readPiece_eq_ok_iff.2 h
    simp [hc]

def connectives : Condition → List Connective
  | leaf _ => []
  | join k left right => k :: (left.connectives ++ right.connectives)

def AndAbove : Condition → Prop
  | leaf _ => True
  | join k left right =>
    (k = .or → .and ∉ left.connectives ∧ .and ∉ right.connectives) ∧
      left.AndAbove ∧ right.AndAbove

theorem andAbove_of_not_mem {c : Condition} (h : .and ∉ c.connectives) : c.AndAbove := by
  induction c with
  | leaf c => trivial
  | join k left right ihl ihr =>
    simp only [connectives, List.mem_cons, List.mem_append, not_or] at h
    exact ⟨fun _ => h.2, ihl h.2.1, ihr h.2.2⟩

theorem andAbove_nest {q : Chain Condition} (hk : ∀ k ∈ q.connectives, k = .and)
    (hq : ∀ c ∈ q.items, c.AndAbove) : q.nest.AndAbove := by
  induction q with
  | last c => exact hq c List.mem_cons_self
  | link c k rest ih =>
    obtain ⟨rfl, hrest⟩ := List.forall_mem_cons.1 hk
    obtain ⟨hc, hitems⟩ := List.forall_mem_cons.1 hq
    exact ⟨nofun, hc, ih hrest hitems⟩

def ofLeaves (leaves : Chain (Chain Comparison)) : Condition :=
  (leaves.map fun group => (group.map leaf).nest).nest

theorem connectives_nest_leaf (group : Chain Comparison) :
    (group.map leaf).nest.connectives = group.connectives := by
  induction group with
  | last c => rfl
  | link c k rest ih =>
    rw [Chain.map, Chain.nest, connectives, ih]
    rfl

theorem andAbove_ofLeaves {s : List Char} {parts : Chain (Chain (List Char))}
    {leaves : Chain (Chain Comparison)} (hcut : IsTwiceCut s parts)
    (hleaves : parts.Related (Chain.Related fun piece d => d.IsReading piece) leaves) :
    (ofLeaves leaves).AndAbove := by
  obtain ⟨pieces, hpieces, hparts⟩ := hcut
  refine andAbove_nest ?_ ?_
  · rw [Chain.connectives_map, ← hleaves.connectives_eq, ← hparts.connectives_eq]
    exact hpieces.connectives_eq
  · intro c hc
    rw [Chain.items_map, List.mem_map] at hc
    obtain ⟨group, hgroup, rfl⟩ := hc
    obtain ⟨part, hpart, hrelated⟩ := hleaves.exists_of_mem hgroup
    obtain ⟨piece, -, hor⟩ := hparts.exists_of_mem hpart
    refine andAbove_of_not_mem ?_
    rw [connectives_nest_leaf, ← hrelated.connectives_eq]
    intro hmem
    cases hor.connectives_eq _ hmem

structure IsReadIn (text : String) (parts : Chain (Chain (List Char))) : Prop where
  succeeds : (∃ c, ofText text = .ok (some c)) ↔
    ∀ piece ∈ parts.items.flatMap Chain.items, hasOperator piece = true
  tree : ∀ c, ofText text = .ok (some c) ↔
    ∃ leaves, parts.Related (Chain.Related fun piece d => d.IsReading piece) leaves ∧
      c = ofLeaves leaves
  fault : ∀ e, ofText text = .error e ↔
    ∃ before piece after, parts.items.flatMap Chain.items = before ++ piece :: after ∧
      (∀ b ∈ before, hasOperator b = true) ∧ hasOperator piece = false ∧
      e = .condition (trimmed (String.ofList piece))
  andAbove : ∀ c, ofText text = .ok (some c) → c.AndAbove

/-- The text has pieces, and is read in them. -/
theorem isReadIn_of_isTwiceCut (t : Phrase) :
    (∃ parts, IsTwiceCut t.text.toList parts) ∧
      ∀ parts, IsTwiceCut t.text.toList parts → IsReadIn t.text parts := by
  refine ⟨exists_isTwiceCut _, ?_⟩
  intro parts hcut
  have ⟨pieces, hpieces, hparts⟩ := hcut
  have hread := read_of_isCut_and hpieces t.flat hparts
  have htree : ∀ c, ofText t.text = .ok (some c) ↔
      ∃ leaves, parts.Related (Chain.Related fun piece d => d.IsReading piece) leaves ∧
        c = ofLeaves leaves := by
    intro c
    rw [ofText_eq_ok_some_iff t.nonblank, hread]
    exact Chain.nestM_eq_ok_iff fun _ _ => Chain.nestM_eq_ok_iff fun _ _ => readPiece_eq_ok_iff
  refine ⟨?_, htree, ?_, ?_⟩
  · simp only [ofText_eq_ok_some_iff t.nonblank, hread, Chain.exists_nestM_eq_ok_iff,
      exists_readPiece_eq_ok_iff, List.forall_mem_flatMap]
  · intro e
    rw [ofText_eq_error_iff t.nonblank, hread, Chain.nestM_eq_error_iff, Chain.firstFault_nestM,
      FirstFault]
    simp only [exists_readPiece_eq_ok_iff, readPiece_eq_error_iff]
    rfl
  · intro c hc
    obtain ⟨leaves, hleaves, rfl⟩ := (htree c).1 hc
    exact andAbove_ofLeaves hcut hleaves

theorem ofText_piece_without_operator :
    IsTwiceCut "a = 1 oR b AND c".toList
      (.link (.link "a = 1".toList .or (.last "b".toList)) .and (.last (.last "c".toList))) ∧
    ofText "a = 1 oR b AND c" = .error (.condition "b") := by
  have hand : IsCut .and "a = 1 oR b AND c".toList
      (.link "a = 1 oR b".toList .and (.last "c".toList)) :=
    .of_cut?_eq_some (by decide) (.of_cut?_eq_none (by decide))
  have hor : IsCut .or "a = 1 oR b".toList (.link "a = 1".toList .or (.last "b".toList)) :=
    .of_cut?_eq_some (by decide) (.of_cut?_eq_none (by decide))
  have hcut : IsTwiceCut "a = 1 oR b AND c".toList
      (.link (.link "a = 1".toList .or (.last "b".toList)) .and (.last (.last "c".toList))) :=
    ⟨_, hand, .link .and hor (.last (.of_cut?_eq_none (by decide)))⟩
  have hread := (isReadIn_of_isTwiceCut
    ⟨"a = 1 oR b AND c", ⟨by decide, by decide⟩, by decide⟩).2 _ hcut
  refine ⟨hcut, (hread.fault _).2 ?_⟩
  exact ⟨["a = 1".toList], "b".toList, ["c".toList], rfl, by decide, by decide, by decide⟩

end Condition
end TableQuery
